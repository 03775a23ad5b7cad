import CentreonBroker.Lib.Decimal

/-!
# Time ranges

A range of the hours of a day, and the text that it is read from. The local time has a fixed
offset, so that `localtime_r` and `mktime` are exact: a day has 86400 seconds, and `mktime`
takes any number of hours. Dates are counted in days, and times have no bound.
-/

namespace CentreonBroker.Time

/-- `struct tm`. The days since the epoch are there instead of the year and the month. -/
structure Tm where
  tm_day : ℤ
  tm_hour : ℤ
  tm_min : ℤ
  tm_sec : ℤ
  tm_wday : ℕ

/-- The day of the week, from 0 for a Sunday. The epoch was a Thursday. -/
def weekday (day : ℤ) : ℕ := ((day + 4) % 7).toNat

/-- `localtime_r`. -/
def localtime (offset t : ℤ) : Tm :=
  let l := t + offset
  ⟨l / 86400, l % 86400 / 3600, l % 3600 / 60, l % 60, weekday (l / 86400)⟩

def mktime (offset : ℤ) (tm : Tm) : ℤ :=
  tm.tm_day * 86400 + tm.tm_hour * 3600 + tm.tm_min * 60 + tm.tm_sec - offset

/-- Both limits are unsigned integers on 64 bits. -/
structure Timerange where
  start_time : ℕ
  end_time : ℕ
  deriving DecidableEq, Repr

namespace Timerange

def start_hour (r : Timerange) : ℕ := r.start_time / (60 * 60)

def start_minute (r : Timerange) : ℕ := r.start_time / 60 % 60

def end_hour (r : Timerange) : ℕ := r.end_time / (60 * 60)

def end_minute (r : Timerange) : ℕ := r.end_time / 60 % 60

/-- An unsigned integer that is put in an `int`. -/
def toInt32 (n : ℕ) : ℤ := Int.bmod n (2 ^ 32)

/-- `to_time_t`: the start and the end of the range, in the day that begins at `midnight`. -/
def to_time_t (offset : ℤ) (midnight : Tm) (r : Timerange) : ℤ × ℤ :=
  let my_tm := { midnight with tm_hour := toInt32 r.start_hour, tm_min := toInt32 r.start_minute }
  let range_start := mktime offset my_tm
  -- `mktime` has put `my_tm` in order: a range that starts on another day also ends on it
  let my_tm := { localtime offset range_start with
    tm_hour := toInt32 r.end_hour
    tm_min := toInt32 r.end_minute }
  (range_start, mktime offset my_tm)

/-! ## The text of the ranges -/

/--
`(iss >> data) && iss.eof()`, in the C locale: a number that ends the text. One with a minus
wraps around, one that does not fit on 64 bits is refused.
-/
def readUint64 (s : List Char) : Option ℕ :=
  let (negative, digits) := Decimal.sign (s.dropWhile Decimal.isSpace)
  if digits = [] ∨ digits.any (fun c => !c.isDigit) then none
  else
    let v := Nat.ofDigitChars 10 digits 0
    if 2 ^ 64 ≤ v then none
    else some (if negative then (2 ^ 64 - v) % 2 ^ 64 else v)

/-- The text before the first `c`, and the text after it. -/
def cut (c : Char) (s : List Char) : Option (List Char × List Char) :=
  if c ∈ s then some (s.takeWhile (· ≠ c), (s.dropWhile (· ≠ c)).tail) else none

/-- `_build_time_t`. -/
def build_time_t (time_str : List Char) : Option ℕ := do
  let (hours, minutes) ← cut ':' time_str
  let hours ← readUint64 hours
  let minutes ← readUint64 minutes
  return (hours * 3600 + minutes * 60) % 2 ^ 64

/-- The loop over the texts between the commas. What is there when one is refused is kept. -/
def buildLoop : List (List Char) → List Timerange → Bool × List Timerange
  | [], timeranges => (true, timeranges)
  | s :: timeranges_str, timeranges =>
    let range := do
      let (start_str, end_str) ← cut '-' s
      let start_time ← build_time_t start_str
      let end_time ← build_time_t end_str
      return ⟨start_time, end_time⟩
    match range with
    | none => (false, timeranges)
    | some r => buildLoop timeranges_str (r :: timeranges)

/-- `build_timeranges_from_string`: whether the text is accepted, and the list. -/
def build_timeranges_from_string (line : List Char) (timeranges : List Timerange) :
    Bool × List Timerange :=
  if line = [] then (true, timeranges) else buildLoop (line.splitOn ',') timeranges

end Timerange

end CentreonBroker.Time
