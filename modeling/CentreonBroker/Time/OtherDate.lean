import CentreonBroker.Time.Daterange

/-!
# Dates that are no calendar dates

An exception by a day of the month, a day of the week or both, as `build_other_date` reads it: the
first of eight formats that is converted in full decides, whatever its words are. The ranges that
are read are put in a vector by the type of the date, which does not grow.
-/

namespace CentreonBroker.Time

/-! ## `sscanf` with words -/

/-- What the formats are made of, `%n` apart. -/
inductive WordDirective where
  /-- `%[a-z]`. -/
  | word
  /-- `%d`. -/
  | int
  /-- `%u`. -/
  | skip
  | space
  | char (c : Char)

/-- The variables that a format stores to, in order. -/
structure Words where
  words : List (List Char)
  ints : List ℤ
  skip : ℕ
  deriving DecidableEq

/-- A number, which `strtol` reads and of which 32 bits are kept. -/
def scanInt (s : List Char) : Option (ℤ × List Char) :=
  let s := s.dropWhile Decimal.isSpace
  let (v, rest) := Decimal.strtol s
  if rest = s then none else some (Int.bmod v (2 ^ 32), rest)

/-- A call that converts all of the format: what it stores and where it ends. -/
def scanWords : List WordDirective → List Char → Option (Words × List Char)
  | [], s => some (⟨[], [], 0⟩, s)
  | .space :: format, s => scanWords format (s.dropWhile Decimal.isSpace)
  | .char c :: format, s =>
    match s with
    | [] => none
    | c' :: s => if c' = c then scanWords format s else none
  | .word :: format, s =>
    let word := s.takeWhile Char.isLower
    if word = [] then none
    else (scanWords format (s.dropWhile Char.isLower)).map fun w =>
      ({ w.1 with words := word :: w.1.words }, w.2)
  | .int :: format, s =>
    (scanInt s).bind fun v => (scanWords format v.2).map fun w =>
      ({ w.1 with ints := v.1 :: w.1.ints }, w.2)
  | .skip :: format, s =>
    (scanUnsigned none (s.dropWhile Decimal.isSpace)).bind fun v =>
      (scanWords format v.2).map fun w => ({ w.1 with skip := v.1 }, w.2)

/-! ## The dates -/

/-- The types of `daterange` but that of calendar dates, in order. -/
inductive OtherType where
  | month_date | month_day | month_week_day | week_day
  deriving DecidableEq, Repr

/-- A `daterange` of one of these types. -/
structure OtherDate where
  type : OtherType
  month_start : ℕ
  month_end : ℕ
  month_day_start : ℤ
  month_day_end : ℤ
  week_day_start : ℕ
  week_day_end : ℕ
  week_day_start_offset : ℤ
  week_day_end_offset : ℤ
  skip_interval : ℕ
  timeranges : List Timerange
  deriving DecidableEq

namespace OtherDate

/-- `_get_month_id`. -/
def get_month_id (name : List Char) : Option ℕ :=
  (["january", "february", "march", "april", "may", "june", "july", "august", "september",
    "october", "november", "december"].map String.toList).idxOf? name

/-- `_get_day_id`. -/
def get_day_id (name : List Char) : Option ℕ :=
  (["sunday", "monday", "tuesday", "wednesday", "thursday", "friday", "saturday"].map
    String.toList).idxOf? name

def new (type : OtherType) : OtherDate := ⟨type, 0, 0, 0, 0, 0, 0, 0, 0, 0, []⟩

def monthDay (first last : ℤ) : OtherDate :=
  { new .month_day with month_day_start := first, month_day_end := last }

def monthDate (month month' : ℕ) (first last : ℤ) : OtherDate :=
  { new .month_date with
    month_start := month, month_end := month', month_day_start := first, month_day_end := last }

def weekDay (day day' : ℕ) (first last : ℤ) : OtherDate :=
  { new .week_day with
    week_day_start := day
    week_day_end := day'
    week_day_start_offset := first
    week_day_end_offset := last }

def monthWeekDay (day month day' month' : ℕ) (first last : ℤ) : OtherDate :=
  { new .month_week_day with
    month_start := month
    month_end := month'
    week_day_start := day
    week_day_end := day'
    week_day_start_offset := first
    week_day_end_offset := last }

/-- Two dates that are each a word and a number. -/
def ofTwo (word word' : List Char) (first last : ℤ) : Option OtherDate :=
  match get_day_id word, get_day_id word' with
  | some day, some day' => some (weekDay day day' first last)
  | _, _ =>
    match get_month_id word, get_month_id word' with
    | some month, some month' => some (monthDate month month' first last)
    | _, _ =>
      if word = "day".toList ∧ word' = "day".toList then some (monthDay first last) else none

/-- The branches of `build_other_date`, by what was stored. -/
def ofWords : List (List Char) → List ℤ → Option OtherDate
  -- wednesday 1 january - thursday 2 july
  | [day, month, day', month'], [first, last] => do
    return monthWeekDay (← get_day_id day) (← get_month_id month) (← get_day_id day')
      (← get_month_id month') first last
  -- monday 2 - thursday 3, february 1 - march 15, day 4 - day 6
  | [word, word'], [first, last] => ofTwo word word' first last
  -- thursday 2 - 4, february 3 - 5, day 1 - 4
  | [word], [first, last] => ofTwo word word first last
  -- thursday 3 february
  | [day, month], [n] => do
    let day ← get_day_id day
    let month ← get_month_id month
    return monthWeekDay day month day month n n
  -- thursday 2, february 3, day 1
  | [word], [n] => ofTwo word word n n
  | _, _ => none

/-- ` - `, and ` / %u`. -/
def dash : List WordDirective := [.space, .char '-', .space]

def every : List WordDirective := [.space, .char '/', .space, .skip]

/-- `%[a-z] %d`, and with a month. -/
def dayFormat : List WordDirective := [.word, .space, .int]

def monthFormat : List WordDirective := dayFormat ++ [.space, .word]

/-- The formats, in the order of the attempts. -/
def formats : List (List WordDirective) :=
  [monthFormat ++ dash ++ monthFormat ++ every, dayFormat ++ dash ++ dayFormat ++ every,
    dayFormat ++ dash ++ [.int] ++ every, monthFormat ++ dash ++ monthFormat,
    dayFormat ++ dash ++ [.int], dayFormat ++ dash ++ dayFormat, monthFormat, dayFormat]

/-- `build_other_date`: the date that is put in the vector. -/
def build_other_date (line : List Char) : Option OtherDate :=
  if line.length > 1024 then none
  else
    let text := line.takeWhile (fun c => c.toNat ≠ 0)
    (formats.findSome? fun format => scanWords (format ++ [.space]) text).bind fun w =>
      (ofWords w.1.words w.1.ints).bind fun d =>
        match Timerange.build_timeranges_from_string (line.drop (text.length - w.2.length)) [] with
        | (false, _) => none
        | (true, timeranges) => some { d with skip_interval := w.1.skip, timeranges := timeranges }

end OtherDate

/-! ## The vector of the exceptions -/

/-- A `daterange`. -/
inductive Date where
  | calendar (d : Daterange)
  | other (d : OtherDate)
  deriving DecidableEq

namespace Date

/-- The type, as an index. -/
def type : Date → ℕ
  | calendar _ => 0
  | other d =>
    match d.type with
    | .month_date => 1
    | .month_day => 2
    | .month_week_day => 3
    | .week_day => 4

/-- `list[type].push_front(range)`. It is none when the vector has no such element. -/
def push_front (d : Date) (list : List (List Date)) : Option (List (List Date)) :=
  if d.type < list.length then some (list.modify d.type (d :: ·)) else none

/-- `build_dateranges_from_string`: whether the text is accepted, and the vector. -/
def build_dateranges_from_string (value : List Char) (list : List (List Date)) :
    Option (Bool × List (List Date)) :=
  match Daterange.build_calendar_date value [] with
  | (true, d :: _) => (push_front (calendar d) list).map fun list => (true, list)
  | _ =>
    match OtherDate.build_other_date value with
    | some d => (push_front (other d) list).map fun list => (true, list)
    | none => some (false, list)

end Date

example : OtherDate.build_other_date "thursday 2 - 4 08:00-12:00".toList =
    some { OtherDate.weekDay 4 4 2 4 with timeranges := [⟨28800, 43200⟩] } := by decide +kernel

end CentreonBroker.Time
