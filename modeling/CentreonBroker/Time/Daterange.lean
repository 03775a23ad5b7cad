import CentreonBroker.Time.Timerange

/-!
# Calendar dates

An exception of a time period: a day, or an interval of days, with ranges of its own. It is read
from a text with `sscanf`, in four attempts that leave what they read in the same variables. The
limits of the interval are made with `mktime`, which takes months and days that do not exist.
-/

namespace CentreonBroker.Time

/-! ## `sscanf` -/

/-- What a format is made of, `%n` apart, which is at the end of each. -/
inductive Directive where
  /-- `%u`, or with a width. -/
  | unsigned (width : Option ℕ)
  | space
  | char (c : Char)

/-- The digits of `%u`, and how many characters were taken. A sign counts in the width. -/
def scanUnsigned (width : Option ℕ) (s : List Char) : Option (ℕ × List Char) :=
  let field := match width with
    | some n => s.take n
    | none => s
  let (negative, body) := Decimal.sign field
  let digits := body.takeWhile Char.isDigit
  if digits = [] then none
  else
    let v := Nat.ofDigitChars 10 digits 0
    -- `strtoul`, and then 32 bits of it
    let v := if 2 ^ 64 ≤ v then 2 ^ 64 - 1 else if negative then (2 ^ 64 - v) % 2 ^ 64 else v
    some (v % 2 ^ 32, s.drop (field.length - body.length + digits.length))

/-- What a call of `sscanf` does: what it stores, and where it ends if all is converted. -/
structure Scanned where
  values : List ℕ
  /-- The text is at its end before the first conversion, and `sscanf` returns `EOF`. -/
  eof : Bool
  rest : Option (List Char)

def sscanf : List Directive → List Char → Scanned
  | [], s => ⟨[], false, some s⟩
  | .space :: format, s => sscanf format (s.dropWhile Decimal.isSpace)
  | .char c :: format, s =>
    match s with
    | [] => ⟨[], true, none⟩
    | c' :: s => if c' = c then sscanf format s else ⟨[], false, none⟩
  | .unsigned width :: format, s =>
    let s := s.dropWhile Decimal.isSpace
    match scanUnsigned width s with
    | none => ⟨[], decide (s = []), none⟩
    | some (v, s) =>
      let scanned := sscanf format s
      -- there was a conversion
      ⟨v :: scanned.values, false, scanned.rest⟩

/-- `%4u-%2u-%2u`. -/
def dateFormat : List Directive :=
  [.unsigned (some 4), .char '-', .unsigned (some 2), .char '-', .unsigned (some 2)]

/-- ` - `, and another date. -/
def intervalFormat : List Directive := dateFormat ++ [.space, .char '-', .space] ++ dateFormat

/-- ` / %u`. -/
def skipFormat : List Directive := [.space, .char '/', .space, .unsigned none]

/-! ## Date ranges -/

/-- A `daterange` of the type `calendar_date`. The numbers are unsigned, on 32 bits. -/
structure Daterange where
  year_start : ℕ
  month_start : ℕ
  month_day_start : ℕ
  year_end : ℕ
  month_end : ℕ
  month_day_end : ℕ
  skip_interval : ℕ
  timeranges : List Timerange
  deriving DecidableEq

namespace Daterange

/-- The setters of the variables that a format stores to, in order. -/
def setStart : List (ℕ → Daterange → Daterange) :=
  [fun v d => { d with year_start := v }, fun v d => { d with month_start := v },
    fun v d => { d with month_day_start := v }]

def setEnd : List (ℕ → Daterange → Daterange) :=
  [fun v d => { d with year_end := v }, fun v d => { d with month_end := v },
    fun v d => { d with month_day_end := v }]

def setSkip : List (ℕ → Daterange → Daterange) := [fun v d => { d with skip_interval := v }]

/-- A call that fails has stored what it converted before. -/
def store : List (ℕ → Daterange → Daterange) → List ℕ → Daterange → Daterange
  | set :: sets, v :: values, d => store sets values (set v d)
  | _, _, d => d

/-- The four calls of `sscanf`: whether the result is not 0, the variables and the end. -/
def scanCalendarDate (text : List Char) : Bool × Daterange × Option (List Char) :=
  let withSkip := sscanf (intervalFormat ++ skipFormat ++ [.space]) text
  let d := store (setStart ++ setEnd ++ setSkip) withSkip.values ⟨0, 0, 0, 0, 0, 0, 0, []⟩
  if withSkip.rest.isSome then (true, d, withSkip.rest)
  else
    let interval := sscanf (intervalFormat ++ [.space]) text
    let d := store (setStart ++ setEnd) interval.values d
    if interval.rest.isSome then (true, d, interval.rest)
    else
      let daySkip := sscanf (dateFormat ++ skipFormat ++ [.space]) text
      let d := store (setStart ++ setSkip) daySkip.values d
      if daySkip.rest.isSome then
        (true, { d with year_end := 0, month_end := 0, month_day_end := 0 }, daySkip.rest)
      else
        let day := sscanf (dateFormat ++ [.space]) text
        let d := store setStart day.values d
        if day.rest.isSome then
          (true, { d with
            year_end := d.year_start
            month_end := d.month_start
            month_day_end := d.month_day_start }, day.rest)
        -- fewer than three numbers, or `EOF`
        else (decide (day.values ≠ []) || day.eof, d, none)

/-- A month is counted from 0, on 32 bits. -/
def previous (month : ℕ) : ℕ := (month + 2 ^ 32 - 1) % 2 ^ 32

/-- `build_calendar_date`. Without `%n` the text of the ranges begins at 0. -/
def build_calendar_date (line : List Char) (list : List Daterange) : Bool × List Daterange :=
  let text := line.takeWhile (fun c => c.toNat ≠ 0)
  match scanCalendarDate text with
  | (false, _, _) => (false, list)
  | (true, d, rest) =>
    let pos := match rest with
      | some rest => text.length - rest.length
      | none => 0
    match Timerange.build_timeranges_from_string (line.drop pos) [] with
    | (false, _) => (false, list)
    | (true, timeranges) =>
      (true, { d with
        month_start := previous d.month_start
        month_end := previous d.month_end
        timeranges := timeranges } :: list)

/-! ## Their limits -/

def isLeap (year : ℤ) : Prop := year % 4 = 0 ∧ (year % 100 ≠ 0 ∨ year % 400 = 0)

instance (year : ℤ) : Decidable (isLeap year) := inferInstanceAs (Decidable (_ ∧ _))

/-- The days of a year before a month, from 0 to 11. -/
def daysBeforeMonth (year : ℤ) (month : ℕ) : ℤ :=
  [0, 31, 59, 90, 120, 151, 181, 212, 243, 273, 304, 334].getD month 0 +
    if 2 ≤ month ∧ isLeap year then 1 else 0

/-- The days between the epoch and a year. -/
def daysBeforeYear (year : ℤ) : ℤ :=
  365 * (year - 1970) + (year - 1) / 4 - (year - 1) / 100 + (year - 1) / 400 - 477

/-- The day that `mktime` makes of `tm_year`, `tm_mon` and `tm_mday`, in their range or not. -/
def dayOfDate (tm_year tm_mon tm_mday : ℤ) : ℤ :=
  let year := tm_year + 1900 + tm_mon / 12
  daysBeforeYear year + daysBeforeMonth year (tm_mon % 12).toNat + tm_mday - 1

/-- `_year_start - 1900` and the like, in an `int`. -/
def tmYear (year : ℕ) : ℤ := Int.bmod (year - 1900) (2 ^ 32)

def startDay (d : Daterange) : ℤ :=
  dayOfDate (tmYear d.year_start) (Timerange.toInt32 d.month_start)
    (Timerange.toInt32 d.month_day_start)

def endDay (d : Daterange) : ℤ :=
  dayOfDate (tmYear d.year_end) (Timerange.toInt32 d.month_end)
    (Timerange.toInt32 d.month_day_end)

/-- `_calendar_date_to_time_t`. An end of -1 is none. -/
def calendar_date_to_time_t (offset : ℤ) (d : Daterange) : Option (ℤ × ℤ) :=
  let start := mktime offset ⟨d.startDay, 0, 0, 0, 0⟩
  if start = -1 then none
  else if d.year_end ≠ 0 then
    let last := mktime offset ⟨d.endDay, 23, 59, 59, 0⟩
    if last = -1 then none else some (start, last + 1)
  else some (start, -1)

end Daterange

end CentreonBroker.Time
