import CentreonBroker.Time.Timerange

/-!
# Time periods

The time ranges of each day of the week, and what is looked for in them: the next time that
is in a range, the next that is in none, and how long an interval is in the ranges. What
looks for a time visits eight days, from the one that it starts in. A result of -1 is "never".
-/

namespace CentreonBroker.Time

/-- `_timeranges`, by the day of the week. -/
structure Timeperiod where
  timeranges : ℕ → List Timerange

namespace Timeperiod

def get_timeranges_by_day (tp : Timeperiod) (day : ℕ) : List Timerange := tp.timeranges day

/-- `set_timerange`. -/
def set_timerange (timerange_text : List Char) (day : ℕ) (tp : Timeperiod) : Bool × Timeperiod :=
  let (ok, timeranges) :=
    Timerange.build_timeranges_from_string timerange_text (tp.timeranges day)
  (ok, { timeranges := Function.update tp.timeranges day timeranges })

/-- What texts make, of those that are accepted. -/
inductive Built : Timeperiod → Prop
  | empty : Built ⟨fun _ => []⟩
  | set {tp tp' : Timeperiod} (text : List Char) (day : ℕ) (tail : Built tp) (hday : day < 7)
      (accepted : tp.set_timerange text day = (true, tp')) : Built tp'

variable (offset : ℤ)

def add_round_days_to_midnight (midnight skip : ℤ) : ℤ :=
  let next_day_time := midnight + skip
  let next_day := localtime offset next_day_time
  if next_day.tm_hour ≠ 0 ∨ next_day.tm_min ≠ 0 ∨ next_day.tm_sec ≠ 0 then
    -- there was a shift in between, so that noon is surely in the proper day
    let next_day := localtime offset (next_day_time + 12 * 60 * 60)
    mktime offset { next_day with tm_hour := 0, tm_min := 0, tm_sec := 0 }
  else next_day_time

/-- The midnight of the day of a time. -/
def midnightOf (preferred_time : ℤ) : ℤ :=
  mktime offset { localtime offset preferred_time with tm_hour := 0, tm_min := 0, tm_sec := 0 }

/-- One turn of the loop over the ranges of a day. -/
def validStep (day_midnight : Tm) (preferred_time earliest_time : ℤ) (trange : Timerange) : ℤ :=
  let (range_start, range_end) := trange.to_time_t offset day_midnight
  if preferred_time < range_end then
    let potential_time := if preferred_time ≤ range_start then range_start else preferred_time
    if earliest_time = -1 ∨ potential_time < earliest_time then potential_time else earliest_time
  else earliest_time

/-- The loop over the days, from those that are left. -/
def validDays (tp : Timeperiod) (preferred_time midnight : ℤ) (weekday : ℕ) : List ℕ → ℤ
  | [] => -1
  | i :: days =>
    let day_start := add_round_days_to_midnight offset midnight (i * 24 * 60 * 60)
    let day_midnight := localtime offset day_start
    let earliest_time := (tp.get_timeranges_by_day ((weekday + i) % 7)).foldl
      (validStep offset day_midnight preferred_time) (-1)
    if earliest_time ≠ -1 then earliest_time
    else validDays tp preferred_time midnight weekday days

def get_next_valid (tp : Timeperiod) (preferred_time : ℤ) : ℤ :=
  if preferred_time ≠ -1 then
    validDays offset tp preferred_time (midnightOf offset preferred_time)
      (localtime offset preferred_time).tm_wday (List.range 8)
  else -1

def is_valid (tp : Timeperiod) (preferred_time : ℤ) : Prop :=
  preferred_time ≠ -1 ∧ get_next_valid offset tp preferred_time = preferred_time

instance (tp : Timeperiod) (t : ℤ) : Decidable (tp.is_valid offset t) :=
  inferInstanceAs (Decidable (_ ∧ _))

/-- One turn of the loop over the ranges of a day, with `invalid_in_all_periods`. -/
def invalidStep (day_midnight : Tm) (s : Bool × ℤ) (trange : Timerange) : Bool × ℤ :=
  let (range_start, range_end) := trange.to_time_t offset day_midnight
  if range_start ≤ s.2 ∧ s.2 < range_end then (false, range_end) else s

/-- All the ranges of a day, and whether the time they lead to is the one they are met with. -/
def invalidPass (ranges : List Timerange) (day_midnight : Tm) (earliest_time : ℤ) : Bool × ℤ :=
  ranges.foldl (invalidStep offset day_midnight) (true, earliest_time)

theorem invalidSteps_lt {day_midnight : Tm} {s : Bool × ℤ} {ranges : List Timerange} :
    let s' := ranges.foldl (invalidStep offset day_midnight) s
    s.2 ≤ s'.2 ∧ (s.1 = true → s'.1 ≠ true → s.2 < s'.2) := by
  induction ranges generalizing s with
  | nil => exact ⟨le_refl _, fun htrue hfalse => absurd htrue hfalse⟩
  | cons r ranges ih =>
    simp only [List.foldl_cons]
    obtain ⟨hle, hlt⟩ := ih (s := invalidStep offset day_midnight s r)
    by_cases hin : (r.to_time_t offset day_midnight).1 ≤ s.2 ∧
        s.2 < (r.to_time_t offset day_midnight).2
    · have hstep : invalidStep offset day_midnight s r =
          (false, (r.to_time_t offset day_midnight).2) := if_pos hin
      rw [hstep] at hle hlt ⊢
      exact ⟨hin.2.le.trans hle, fun _ _ => lt_of_lt_of_le hin.2 hle⟩
    · have hstep : invalidStep offset day_midnight s r = s := if_neg hin
      rw [hstep] at hle hlt ⊢
      exact ⟨hle, hlt⟩

/-- The `while` of a day. It ends with a time that is in no range of it, or past its end. -/
def invalidLoop (ranges : List Timerange) (day_midnight : Tm) (day_end earliest_time : ℤ) :
    Option ℤ :=
  if earliest_time < day_end then
    let s := invalidPass offset ranges day_midnight earliest_time
    if _h : s.1 = true then some s.2 else invalidLoop ranges day_midnight day_end s.2
  else none
termination_by (day_end - earliest_time).toNat
decreasing_by
  have hlt : earliest_time < (invalidPass offset ranges day_midnight earliest_time).2 :=
    (invalidSteps_lt offset).2 rfl _h
  omega

/-- The loop over the days, from those that are left. -/
def invalidDays (tp : Timeperiod) (preferred_time midnight : ℤ) (weekday : ℕ) : List ℕ → ℤ
  | [] => -1
  | i :: days =>
    let day_start := add_round_days_to_midnight offset midnight (i * 24 * 60 * 60)
    let day_end := add_round_days_to_midnight offset day_start (24 * 60 * 60)
    let day_midnight := localtime offset day_start
    let earliest_time := if day_start < preferred_time then preferred_time else day_start
    match invalidLoop offset (tp.get_timeranges_by_day ((weekday + i) % 7)) day_midnight day_end
        earliest_time with
    | some t => t
    | none => invalidDays tp preferred_time midnight weekday days

def get_next_invalid (tp : Timeperiod) (preferred_time : ℤ) : ℤ :=
  if preferred_time ≠ -1 then
    invalidDays offset tp preferred_time (midnightOf offset preferred_time)
      (localtime offset preferred_time).tm_wday (List.range 8)
  else -1

/-- The loop of `duration_intersect`, if it ends within so many turns. -/
def durationLoop (tp : Timeperiod) (end_time : ℤ) : ℕ → ℤ → ℕ → Option ℕ
  | 0, _, _ => none
  | fuel + 1, current_end_time, duration =>
    let current_start_time := get_next_valid offset tp current_end_time
    let current_end_time := get_next_invalid offset tp current_start_time
    if current_start_time = -1 ∨ end_time < current_start_time then some duration
    else if current_end_time = -1 ∨ end_time < current_end_time then
      some ((duration + (end_time - current_start_time).toNat) % 2 ^ 32)
    else
      durationLoop tp end_time fuel current_end_time
        ((duration + (current_end_time - current_start_time).toNat) % 2 ^ 32)

def duration_intersect (tp : Timeperiod) (fuel : ℕ) (start_time end_time : ℤ) : Option ℕ :=
  if end_time < start_time then some 0 else durationLoop offset tp end_time fuel start_time 0

end Timeperiod

end CentreonBroker.Time
