import CentreonBroker.Lib.Spans
import CentreonBroker.Time.Timeperiod

/-!
# The next valid time, and the next invalid one

A time is covered when it is in a range of its own day. `get_next_invalid` always finds the
next time that is not covered. `get_next_valid` stops at the first day that has a range ending
after the time it starts from, and takes the earliest start there: a range that ends before it
starts, or that starts on another day, takes the place of those that hold something.
-/

namespace CentreonBroker.Time

open Spans

section Calendar

variable (offset : ℤ)

/-- The day of a time. -/
def dayOf (t : ℤ) : ℤ := (t + offset) / 86400

/-- When a day starts. -/
def dayStart (d : ℤ) : ℤ := d * 86400 - offset

variable {offset}

theorem dayOf_eq_iff {t d : ℤ} :
    dayOf offset t = d ↔ dayStart offset d ≤ t ∧ t < dayStart offset (d + 1) := by
  simp only [dayOf, dayStart]
  omega

variable (offset) in
theorem dayStart_dayOf_le (t : ℤ) : dayStart offset (dayOf offset t) ≤ t :=
  (dayOf_eq_iff.mp rfl).1

theorem lt_dayStart_of_dayOf_lt {t d : ℤ} (h : dayOf offset t < d) : t < dayStart offset d := by
  simp only [dayOf, dayStart] at h ⊢
  omega

theorem dayOf_mono {t u : ℤ} (h : t ≤ u) : dayOf offset t ≤ dayOf offset u := by
  simp only [dayOf]
  omega

theorem localtime_dayStart (d : ℤ) :
    localtime offset (dayStart offset d) = ⟨d, 0, 0, 0, weekday d⟩ := by
  have hd : dayStart offset d + offset = d * 86400 := by
    rw [dayStart]
    omega
  have hdiv : d * 86400 / 86400 = d := by omega
  have hday : d * 86400 % 86400 / 3600 = 0 := by omega
  have hhour : d * 86400 % 3600 / 60 = 0 := by omega
  have hmin : d * 86400 % 60 = 0 := by omega
  simp only [localtime, hd, hdiv, hday, hhour, hmin]

theorem midnightOf_eq (t : ℤ) :
    Timeperiod.midnightOf offset t = dayStart offset (dayOf offset t) := by
  show dayOf offset t * 86400 + 0 * 3600 + 0 * 60 + 0 - offset = dayOf offset t * 86400 - offset
  omega

variable (offset) in
theorem add_round_days_dayStart {d skip : ℤ} (k : ℤ) (hskip : skip = k * 86400) :
    Timeperiod.add_round_days_to_midnight offset (dayStart offset d) skip =
      dayStart offset (d + k) := by
  have hnext : dayStart offset d + skip = dayStart offset (d + k) := by
    simp only [dayStart]
    omega
  rw [Timeperiod.add_round_days_to_midnight, hnext]
  simp only [localtime_dayStart, ne_eq, not_true_eq_false, or_self, if_false]

theorem weekday_add (d : ℤ) (i : ℕ) : (weekday d + i) % 7 = weekday (d + i) := by
  simp only [weekday]
  omega

theorem weekday_add_weeks (d q : ℤ) : weekday (d + 7 * q) = weekday d := by
  simp only [weekday]
  omega

end Calendar

namespace Timerange

/-- From midnight to the start of the range. -/
def startOffset (r : Timerange) : ℤ := toInt32 r.start_hour * 3600 + toInt32 r.start_minute * 60

/-- To its end, which is on the day of the start. -/
def endOffset (r : Timerange) : ℤ :=
  r.startOffset / 86400 * 86400 + (toInt32 r.end_hour * 3600 + toInt32 r.end_minute * 60)

variable (offset : ℤ)

/-- When the range starts in a day. -/
def startOn (d : ℤ) (r : Timerange) : ℤ := dayStart offset d + r.startOffset

def endOn (d : ℤ) (r : Timerange) : ℤ := dayStart offset d + r.endOffset

theorem to_time_t_dayStart (d : ℤ) (r : Timerange) :
    r.to_time_t offset (localtime offset (dayStart offset d)) =
      (r.startOn offset d, r.endOn offset d) := by
  have hstart : mktime offset ⟨d, toInt32 r.start_hour, toInt32 r.start_minute, 0, weekday d⟩ =
      r.startOn offset d := by
    simp only [mktime, startOn, startOffset, dayStart]
    omega
  have hday : (r.startOn offset d + offset) / 86400 = d + r.startOffset / 86400 := by
    simp only [startOn, dayStart]
    omega
  have hsec : (r.startOn offset d + offset) % 60 = 0 := by
    simp only [startOn, startOffset, dayStart]
    omega
  rw [localtime_dayStart, to_time_t]
  simp only [hstart, localtime, hday, hsec]
  refine Prod.ext rfl ?_
  simp only [mktime, endOn, endOffset, dayStart]
  omega

end Timerange

namespace Timeperiod

open Timerange

variable (offset : ℤ) (tp : Timeperiod)

/-- The ranges of a day. -/
def ranges (d : ℤ) : List Timerange := tp.timeranges (weekday d)

/-- The ranges of a day that end after a time. -/
def ahead (t d : ℤ) : List Timerange := (tp.ranges d).filter fun r => t < r.endOn offset d

/-- A time is in a range of a day. -/
def InDay (d t : ℤ) : Prop := ∃ r ∈ tp.ranges d, r.startOn offset d ≤ t ∧ t < r.endOn offset d

/-- A time is in a range of its own day. -/
def Covered (t : ℤ) : Prop := tp.InDay offset (dayOf offset t) t

variable {offset tp}

variable {t d : ℤ}

theorem mem_ahead {r : Timerange} :
    r ∈ tp.ahead offset t d ↔ r ∈ tp.ranges d ∧ t < r.endOn offset d := by
  rw [ahead, List.mem_filter, decide_eq_true_eq]

theorem get_timeranges_add (d : ℤ) (i : ℕ) :
    tp.get_timeranges_by_day ((weekday d + i) % 7) = tp.ranges (d + i) := by
  rw [weekday_add]
  rfl

/-! ## What the search for a valid time finds -/

/-- What a range of a day offers to a time that it ends after. -/
theorem validStep_eq {e : ℤ} {r : Timerange} :
    validStep offset (localtime offset (dayStart offset d)) t e r =
      if t < r.endOn offset d then
        if e = -1 ∨ max t (r.startOn offset d) < e then max t (r.startOn offset d) else e
      else e := by
  have hmax : (if t ≤ r.startOn offset d then r.startOn offset d else t) =
      max t (r.startOn offset d) := by
    split <;> omega
  rw [validStep, to_time_t_dayStart]
  simp only [hmax]

variable (offset) in
/-- The loop over the ranges of a day takes the least of what they offer. -/
theorem validSteps_spec {e : ℤ} (ht : 0 ≤ t) (l : List Timerange) :
    let l' := l.filter fun r => t < r.endOn offset d
    let v := l.foldl (validStep offset (localtime offset (dayStart offset d)) t) e
    (v = e ∧ (e = -1 → l' = []) ∨ ∃ r ∈ l', v = max t (r.startOn offset d)) ∧
      (e ≠ -1 → v ≤ e) ∧ ∀ r ∈ l', v ≤ max t (r.startOn offset d) := by
  induction l generalizing e with
  | nil => exact ⟨Or.inl ⟨rfl, fun _ => rfl⟩, fun _ => le_refl e, fun _ h => absurd h List.not_mem_nil⟩
  | cons r l ih =>
    simp only [List.foldl_cons, validStep_eq]
    by_cases hend : t < r.endOn offset d
    · rw [if_pos hend, List.filter_cons_of_pos (by simpa using hend)]
      by_cases htake : e = -1 ∨ max t (r.startOn offset d) < e
      · rw [if_pos htake]
        obtain ⟨hfound, hle, hleast⟩ := ih (e := max t (r.startOn offset d))
        have hle := hle (by omega)
        refine ⟨?_, fun he => ?_, List.forall_mem_cons.mpr ⟨hle, hleast⟩⟩
        · rcases hfound with ⟨hv, -⟩ | ⟨r', hr', hv⟩
          · exact Or.inr ⟨r, List.mem_cons_self, hv⟩
          · exact Or.inr ⟨r', List.mem_cons_of_mem r hr', hv⟩
        · have hlt := htake.resolve_left he
          exact hle.trans hlt.le
      · rw [if_neg htake]
        obtain ⟨hfound, hle, hleast⟩ := ih (e := e)
        have hle' := hle (fun he => htake (Or.inl he))
        refine ⟨?_, hle, List.forall_mem_cons.mpr ⟨by omega, hleast⟩⟩
        rcases hfound with ⟨hv, -⟩ | ⟨r', hr', hv⟩
        · exact Or.inl ⟨hv, fun he => absurd (Or.inl he) htake⟩
        · exact Or.inr ⟨r', List.mem_cons_of_mem r hr', hv⟩
    · rw [if_neg hend, List.filter_cons_of_neg (by simpa using hend)]
      exact ih

variable (offset tp) in
/-- What one day offers. -/
theorem validDay_spec (ht : 0 ≤ t) (d : ℤ) :
    let v := (tp.ranges d).foldl (validStep offset (localtime offset (dayStart offset d)) t) (-1)
    (v = -1 ∧ tp.ahead offset t d = []) ∨
      v ≠ -1 ∧ ∃ r ∈ tp.ahead offset t d, v = max t (r.startOn offset d) ∧
        ∀ r' ∈ tp.ahead offset t d, v ≤ max t (r'.startOn offset d) := by
  intro v
  obtain ⟨hfound, -, hleast⟩ := validSteps_spec offset (d := d) (e := -1) ht (tp.ranges d)
  rcases hfound with ⟨hv, hempty⟩ | ⟨r, hr, hv⟩
  · exact Or.inl ⟨hv, hempty rfl⟩
  · have hne : v ≠ -1 := by
      have hv : v = max t (r.startOn offset d) := hv
      omega
    exact Or.inr ⟨hne, r, hr, hv, hleast⟩

variable (offset tp) in
theorem validDays_spec (ht : 0 ≤ t) (d : ℤ) (k i : ℕ) :
    let v := validDays offset tp t (dayStart offset d) (weekday d) (List.range' i k)
    (v = -1 ∧ ∀ j, i ≤ j → j < i + k → tp.ahead offset t (d + j) = []) ∨
      v ≠ -1 ∧ ∃ j : ℕ, i ≤ j ∧ j < i + k ∧
        (∀ j', i ≤ j' → j' < j → tp.ahead offset t (d + j') = []) ∧
        ∃ r ∈ tp.ahead offset t (d + j), v = max t (r.startOn offset (d + j)) ∧
          ∀ r' ∈ tp.ahead offset t (d + j), v ≤ max t (r'.startOn offset (d + j)) := by
  induction k generalizing i with
  | zero => exact Or.inl ⟨rfl, fun j hij hj => by omega⟩
  | succ k ih =>
    have hstart := add_round_days_dayStart offset (d := d) i
      (show (i : ℤ) * 24 * 60 * 60 = i * 86400 by omega)
    simp only [List.range'_succ, validDays, hstart, get_timeranges_add]
    rcases validDay_spec offset tp ht (d + i) with ⟨hv, hempty⟩ | ⟨hv, r, hr, heq, hleast⟩
    · rw [if_neg (not_not.mpr hv)]
      rcases ih (i + 1) with ⟨hv', hnone⟩ | ⟨hv', j, hij, hj, hbefore, hrest⟩
      · refine Or.inl ⟨hv', fun j hij hj => ?_⟩
        rcases Nat.eq_or_lt_of_le hij with rfl | hlt
        · exact hempty
        · exact hnone j hlt (by omega)
      · refine Or.inr ⟨hv', j, by omega, by omega, fun j' hij' hj' => ?_, hrest⟩
        rcases Nat.eq_or_lt_of_le hij' with rfl | hlt
        · exact hempty
        · exact hbefore j' hlt hj'
    · rw [if_pos hv]
      exact Or.inr ⟨hv, i, le_refl i, by omega, fun j' hij' hj' => by omega, r, hr, heq, hleast⟩

/-- The search from `t` stops at `d`: the first of eight days with a range that ends after `t`. -/
structure StopsAt (offset : ℤ) (tp : Timeperiod) (t d : ℤ) : Prop where
  ahead : tp.ahead offset t d ≠ []
  le : dayOf offset t ≤ d
  lt : d < dayOf offset t + 8
  first : ∀ d', dayOf offset t ≤ d' → d' < d → tp.ahead offset t d' = []

theorem StopsAt.unique {d' : ℤ} (h : StopsAt offset tp t d) (h' : StopsAt offset tp t d') :
    d = d' := by
  rcases lt_trichotomy d d' with hlt | heq | hlt
  · exact absurd (h'.first d h.le hlt) h.ahead
  · exact heq
  · exact absurd (h.first d' h'.le hlt) h'.ahead

variable (offset tp) in
/-- **What `get_next_valid` finds.** -/
theorem get_next_valid_spec (ht : 0 ≤ t) :
    (tp.get_next_valid offset t = -1 ∧
        ∀ d, dayOf offset t ≤ d → d < dayOf offset t + 8 → tp.ahead offset t d = []) ∨
      tp.get_next_valid offset t ≠ -1 ∧ ∃ d, StopsAt offset tp t d ∧
        ∃ r ∈ tp.ahead offset t d, tp.get_next_valid offset t = max t (r.startOn offset d) ∧
          ∀ r' ∈ tp.ahead offset t d, tp.get_next_valid offset t ≤ max t (r'.startOn offset d) := by
  have hsearch : tp.get_next_valid offset t = validDays offset tp t (dayStart offset (dayOf offset t))
      (weekday (dayOf offset t)) (List.range' 0 8) := by
    rw [get_next_valid, if_pos (by omega), midnightOf_eq, List.range_eq_range']
    rfl
  rw [hsearch]
  rcases validDays_spec offset tp ht (dayOf offset t) 8 0 with
    ⟨hv, hnone⟩ | ⟨hv, j, -, hj, hbefore, r, hr, heq, hleast⟩
  · refine Or.inl ⟨hv, fun d hle hlt => ?_⟩
    have hnone := hnone (d - dayOf offset t).toNat (Nat.zero_le _) (by omega)
    rwa [show dayOf offset t + ((d - dayOf offset t).toNat : ℤ) = d by omega] at hnone
  · refine Or.inr ⟨hv, dayOf offset t + j, ⟨?_, by omega, by omega, fun d' hle hlt => ?_⟩,
      r, hr, heq, hleast⟩
    · exact List.ne_nil_of_mem hr
    · have hnone := hbefore (d' - dayOf offset t).toNat (Nat.zero_le _) (by omega)
      rwa [show dayOf offset t + ((d' - dayOf offset t).toNat : ℤ) = d' by omega] at hnone

/-- **When a time is valid**: a range of the day that the search stops at has begun. -/
theorem is_valid_iff (ht : 0 ≤ t) :
    tp.is_valid offset t ↔ ∃ d, StopsAt offset tp t d ∧
      ∃ r ∈ tp.ahead offset t d, r.startOn offset d ≤ t := by
  have hne : t ≠ -1 := by omega
  rcases get_next_valid_spec offset tp ht with
    ⟨hv, hnone⟩ | ⟨hv, d, hd, r, hr, heq, hleast⟩
  · refine iff_of_false (fun h => hne (h.2.symm.trans hv)) ?_
    rintro ⟨d, hd, -⟩
    exact hd.ahead (hnone d hd.le hd.lt)
  · constructor
    · rintro ⟨-, hself⟩
      exact ⟨d, hd, r, hr, by omega⟩
    · rintro ⟨d', hd', r', hr', hbegun⟩
      obtain rfl := hd.unique hd'
      have hle := hleast r' hr'
      exact ⟨hne, by omega⟩

/-! ## What the search for an invalid time finds -/

variable (offset) in
/-- The loop over the ranges of a day only leaves times that are in one of them. -/
theorem invalidSteps_spec (l : List Timerange) (s : Bool × ℤ) :
    let s' := l.foldl (invalidStep offset (localtime offset (dayStart offset d))) s
    (∀ u, s.2 ≤ u → u < s'.2 → ∃ r ∈ l, r.startOn offset d ≤ u ∧ u < r.endOn offset d) ∧
      (s'.1 = true → s'.2 = s.2 ∧ s.1 = true ∧
        ∀ r ∈ l, ¬ (r.startOn offset d ≤ s.2 ∧ s.2 < r.endOn offset d)) := by
  induction l generalizing s with
  | nil =>
    refine ⟨fun u hle hlt => ?_, fun htrue => ⟨rfl, htrue, fun _ h => absurd h List.not_mem_nil⟩⟩
    exact absurd hlt (not_lt.mpr hle)
  | cons r l ih =>
    have hstep : invalidStep offset (localtime offset (dayStart offset d)) s r =
        if r.startOn offset d ≤ s.2 ∧ s.2 < r.endOn offset d then (false, r.endOn offset d) else s := by
      rw [invalidStep, to_time_t_dayStart]
    simp only [List.foldl_cons, hstep]
    by_cases hin : r.startOn offset d ≤ s.2 ∧ s.2 < r.endOn offset d
    · rw [if_pos hin]
      obtain ⟨hleft, hend⟩ := ih (false, r.endOn offset d)
      refine ⟨fun u hle hlt => ?_, fun htrue => absurd (hend htrue).2.1 Bool.noConfusion⟩
      by_cases hu : u < r.endOn offset d
      · exact ⟨r, List.mem_cons_self, hin.1.trans hle, hu⟩
      · obtain ⟨r', hr', hu'⟩ := hleft u (not_lt.mp hu) hlt
        exact ⟨r', List.mem_cons_of_mem r hr', hu'⟩
    · rw [if_neg hin]
      obtain ⟨hleft, hend⟩ := ih s
      refine ⟨fun u hle hlt => ?_, fun htrue => ?_⟩
      · obtain ⟨r', hr', hu'⟩ := hleft u hle hlt
        exact ⟨r', List.mem_cons_of_mem r hr', hu'⟩
      · obtain ⟨heq, hs, hnone⟩ := hend htrue
        exact ⟨heq, hs, List.forall_mem_cons.mpr ⟨hin, hnone⟩⟩

variable (offset tp) in
/-- The search in one day. -/
theorem invalidLoop_spec (d day_end e : ℤ) :
    let v := invalidLoop offset (tp.ranges d) (localtime offset (dayStart offset d)) day_end e
    (∀ t, v = some t → e ≤ t ∧ t < day_end ∧ ¬ tp.InDay offset d t ∧
        ∀ u, e ≤ u → u < t → tp.InDay offset d u) ∧
      (v = none → ∀ u, e ≤ u → u < day_end → tp.InDay offset d u) := by
  induction e using invalidLoop.induct offset (tp.ranges d) (localtime offset (dayStart offset d))
    day_end with
  | case1 e hlt s htrue =>
    have hloop : invalidLoop offset (tp.ranges d) (localtime offset (dayStart offset d)) day_end e =
        some s.2 := by
      rw [invalidLoop, if_pos hlt]
      exact dif_pos htrue
    rw [hloop]
    obtain ⟨-, hend⟩ := invalidSteps_spec offset (d := d) (tp.ranges d) (true, e)
    obtain ⟨heq, -, hnone⟩ := hend htrue
    refine ⟨fun t ht => ?_, fun h => absurd h (Option.some_ne_none _)⟩
    obtain rfl : s.2 = t := Option.some.inj ht
    have heq : s.2 = e := heq
    rw [heq]
    refine ⟨le_refl e, hlt, ?_, fun u hle hlt => absurd hlt (not_lt.mpr hle)⟩
    rintro ⟨r, hr, hin⟩
    exact hnone r hr hin
  | case2 e hlt s hfalse ih =>
    have hloop : invalidLoop offset (tp.ranges d) (localtime offset (dayStart offset d)) day_end e =
        invalidLoop offset (tp.ranges d) (localtime offset (dayStart offset d)) day_end s.2 := by
      rw [invalidLoop, if_pos hlt]
      exact dif_neg hfalse
    rw [hloop]
    obtain ⟨hleft, -⟩ := invalidSteps_spec offset (d := d) (tp.ranges d) (true, e)
    have hgrows : e < s.2 := (invalidSteps_lt offset).2 rfl hfalse
    refine ⟨fun t ht => ?_, fun hnone u hle hu => ?_⟩
    · obtain ⟨hle, hend, hout, hin⟩ := ih.1 t ht
      refine ⟨hgrows.le.trans hle, hend, hout, fun u heu hut => ?_⟩
      by_cases hu : u < s.2
      · exact hleft u heu hu
      · exact hin u (not_lt.mp hu) hut
    · by_cases hus : u < s.2
      · exact hleft u hle hus
      · exact ih.2 hnone u (not_lt.mp hus) hu
  | case3 e hlt =>
    rw [invalidLoop, if_neg hlt]
    refine ⟨fun t ht => absurd ht.symm (Option.some_ne_none t), fun _ u hle hu => ?_⟩
    omega

/-- In a day, being covered is being in one of its ranges. -/
theorem covered_iff (hle : dayStart offset d ≤ t) (hlt : t < dayStart offset (d + 1)) :
    tp.Covered offset t ↔ tp.InDay offset d t := by
  rw [Covered, dayOf_eq_iff.mpr ⟨hle, hlt⟩]

variable (offset) in
theorem dayStart_lt (d : ℤ) : dayStart offset d < dayStart offset (d + 1) := by
  simp only [dayStart]
  omega

variable (offset tp) in
theorem invalidDays_spec (ht : 0 ≤ t) (d : ℤ) (hd : t < dayStart offset (d + 1)) (k i : ℕ) :
    let v := invalidDays offset tp t (dayStart offset d) (weekday d) (List.range' i k)
    let e := max t (dayStart offset (d + i))
    (v = -1 ∧ ∀ u, e ≤ u → u < dayStart offset (d + i + k) → tp.Covered offset u) ∨
      v ≠ -1 ∧ e ≤ v ∧ ¬ tp.Covered offset v ∧ ∀ u, e ≤ u → u < v → tp.Covered offset u := by
  induction k generalizing i with
  | zero =>
    refine Or.inl ⟨rfl, fun u hle hlt => ?_⟩
    rw [Nat.cast_zero, add_zero] at hlt
    omega
  | succ k ih =>
    have hstart := add_round_days_dayStart offset (d := d) i
      (show (i : ℤ) * 24 * 60 * 60 = i * 86400 by omega)
    have hend := add_round_days_dayStart offset (d := d + i) 1
      (show 24 * 60 * 60 = 1 * 86400 by omega)
    have hmax : (if dayStart offset (d + i) < t then t else dayStart offset (d + i)) =
        max t (dayStart offset (d + i)) := by
      split <;> omega
    have hnext : t < dayStart offset (d + i + 1) := by
      simp only [dayStart] at hd ⊢
      omega
    have hi : d + ((i + 1 : ℕ) : ℤ) = d + i + 1 := by omega
    have hlater : max t (dayStart offset (d + (i + 1 : ℕ))) = dayStart offset (d + i + 1) := by
      rw [hi]
      exact max_eq_right hnext.le
    simp only [List.range'_succ, invalidDays, hstart, hend, get_timeranges_add, hmax]
    obtain ⟨hsome, hnone⟩ := invalidLoop_spec offset tp (d + i)
      (dayStart offset (d + i + 1)) (max t (dayStart offset (d + i)))
    have hday : ∀ u, max t (dayStart offset (d + i)) ≤ u → u < dayStart offset (d + i + 1) →
        (tp.Covered offset u ↔ tp.InDay offset (d + i) u) :=
      fun u hle hlt => covered_iff ((le_max_right _ _).trans hle) hlt
    cases hloop : invalidLoop offset (tp.ranges (d + i))
        (localtime offset (dayStart offset (d + i))) (dayStart offset (d + i + 1))
        (max t (dayStart offset (d + i))) with
    | some v =>
      obtain ⟨hle, hlt, hout, hin⟩ := hsome v hloop
      have hne : v ≠ -1 := by omega
      refine Or.inr ⟨hne, hle, fun hv => hout ((hday v hle hlt).mp hv), fun u heu huv => ?_⟩
      exact (hday u heu (huv.trans hlt)).mpr (hin u heu huv)
    | none =>
      have hcovered : ∀ u, max t (dayStart offset (d + i)) ≤ u → u < dayStart offset (d + i + 1) →
          tp.Covered offset u := fun u hle hlt => (hday u hle hlt).mpr (hnone hloop u hle hlt)
      have hk : d + ((i + 1 : ℕ) : ℤ) + k = d + i + (k + 1 : ℕ) := by omega
      rcases ih (i + 1) with ⟨hv, hall⟩ | ⟨hv, hle, hout, hin⟩
      · refine Or.inl ⟨hv, fun u heu hu => ?_⟩
        by_cases hu' : u < dayStart offset (d + i + 1)
        · exact hcovered u heu hu'
        · rw [hlater, hk] at hall
          exact hall u (not_lt.mp hu') hu
      · rw [hlater] at hle hin
        have hfrom := max_le hnext.le (dayStart_lt offset (d + i)).le
        refine Or.inr ⟨hv, hfrom.trans hle, hout, fun u heu huv => ?_⟩
        by_cases hu' : u < dayStart offset (d + i + 1)
        · exact hcovered u heu hu'
        · exact hin u (not_lt.mp hu') huv

variable (offset tp) in
/-- The ranges are the same a number of weeks later. -/
theorem covered_add_weeks (u q : ℤ) :
    tp.Covered offset (u + q * 604800) ↔ tp.Covered offset u := by
  have hday : dayOf offset (u + q * 604800) = dayOf offset u + 7 * q := by
    simp only [dayOf]
    omega
  have hstart : dayStart offset (dayOf offset u + 7 * q) = dayStart offset (dayOf offset u) + q * 604800 := by
    simp only [dayStart]
    omega
  simp only [Covered, InDay, ranges, hday, weekday_add_weeks, startOn, endOn, hstart]
  constructor
  · rintro ⟨r, hr, hle, hlt⟩
    exact ⟨r, hr, by omega, by omega⟩
  · rintro ⟨r, hr, hle, hlt⟩
    exact ⟨r, hr, by omega, by omega⟩

variable (offset tp) in
/-- **`get_next_invalid` finds the first time that is not covered.** -/
theorem get_next_invalid_spec (ht : 0 ≤ t) :
    FirstFrom (fun u => ¬ tp.Covered offset u) t (tp.get_next_invalid offset t) := by
  have hsearch : tp.get_next_invalid offset t =
      invalidDays offset tp t (dayStart offset (dayOf offset t)) (weekday (dayOf offset t))
        (List.range' 0 8) := by
    rw [get_next_invalid, if_pos (by omega), midnightOf_eq, List.range_eq_range']
    rfl
  have hmax : max t (dayStart offset (dayOf offset t + (0 : ℕ))) = t := by
    have hle := dayStart_dayOf_le offset t
    rw [Nat.cast_zero, add_zero]
    omega
  have hspec := invalidDays_spec offset tp ht (dayOf offset t)
    (dayOf_eq_iff.mp rfl).2 8 0
  rw [← hsearch] at hspec
  simp only [hmax] at hspec
  rcases hspec with ⟨hv, hall⟩ | ⟨hv, hle, hout, hin⟩
  · refine ⟨fun h => absurd hv h, fun _ u hu => not_not.mpr ?_⟩
    -- a week of covered times follows, and the weeks are all alike
    obtain ⟨q, hq, hlt⟩ : ∃ q, t ≤ u - q * 604800 ∧ u - q * 604800 < t + 604800 :=
      ⟨(u - t) / 604800, by omega, by omega⟩
    have hcovered := hall (u - q * 604800) hq (by
      have hle := dayStart_dayOf_le offset t
      simp only [dayStart, dayOf] at hle ⊢
      omega)
    have hback := covered_add_weeks offset tp (u - q * 604800) q
    rw [sub_add_cancel] at hback
    exact hback.mpr hcovered
  · refine ⟨fun _ => ⟨⟨hle, hout⟩, fun u hu => ?_⟩, fun h => absurd h hv⟩
    by_contra hlt
    exact hu.2 (hin u hu.1 (not_le.mp hlt))

end Timeperiod

end CentreonBroker.Time
