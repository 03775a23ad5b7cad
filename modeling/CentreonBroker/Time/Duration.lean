import CentreonBroker.Time.Exact

/-!
# How long a part of a day is in a time period

Whatever the ranges of a time period are, the searches miss no covered time of the day they
start in. So `duration_intersect` counts the covered times of any part of a day, when it ends.
It always ends where no range begins before its day: one that does is found again and again.
-/

namespace CentreonBroker.Time

open Spans Timerange

namespace Timeperiod

instance (offset : ℤ) (tp : Timeperiod) : DecidablePred (tp.Covered offset) := fun t =>
  inferInstanceAs (Decidable (∃ r ∈ tp.ranges (dayOf offset t), _))

/-- No range begins before its day. The hours of one that does have overflowed an `int`. -/
def BeginsInDay (tp : Timeperiod) : Prop := ∀ day, ∀ r ∈ tp.timeranges day, 0 ≤ r.startOffset

variable {offset : ℤ} {tp : Timeperiod}

theorem le_get_next_valid {t : ℤ} (ht : 0 ≤ t) (hv : tp.get_next_valid offset t ≠ -1) :
    t ≤ tp.get_next_valid offset t := by
  rcases get_next_valid_spec offset tp ht with ⟨hnone, -⟩ | ⟨-, d, -, r, -, heq, -⟩
  · exact absurd hnone hv
  · rw [heq]
    exact le_max_left _ _

/-- **The search misses no covered time of the day that it starts in.** -/
theorem get_next_valid_le_covered {t u : ℤ} (ht : 0 ≤ t) (htu : t ≤ u)
    (hday : dayOf offset t = dayOf offset u) (hu : tp.Covered offset u) :
    tp.get_next_valid offset t ≠ -1 ∧ tp.get_next_valid offset t ≤ u := by
  obtain ⟨r, hr, hstart, hend⟩ := hu
  have hahead := mem_ahead_of_inDay hr htu hend
  have hstops : StopsAt offset tp t (dayOf offset u) :=
    ⟨List.ne_nil_of_mem hahead, hday.le, by omega, fun d' hle hlt => by omega⟩
  rcases get_next_valid_spec offset tp ht with ⟨-, hnone⟩ | ⟨hv, d, hd, r', -, -, hleast⟩
  · exact absurd (hnone _ hstops.le hstops.lt) hstops.ahead
  · obtain rfl := hd.unique hstops
    exact ⟨hv, (hleast r hahead).trans (max_le htu hstart)⟩

/-- There is no covered time of the day before what the search finds. -/
theorem countIn_before_next {d t e : ℤ} (ht : 0 ≤ t) (hd : dayStart offset d ≤ t)
    (he : e ≤ dayStart offset (d + 1)) (s : ℤ) (hs : s ≤ e)
    (hnext : tp.get_next_valid offset t = -1 ∨ s ≤ tp.get_next_valid offset t) :
    countIn (tp.Covered offset) t s = 0 := by
  refine countIn_eq_zero fun u htu hus hu => ?_
  have htday : dayOf offset t = d := dayOf_eq_iff.mpr ⟨hd, by omega⟩
  have huday : dayOf offset u = d := dayOf_eq_iff.mpr ⟨by omega, by omega⟩
  obtain ⟨hne, hle⟩ := get_next_valid_le_covered ht htu (htday.trans huday.symm) hu
  omega

/-- **When the loop ends in a part of a day, it has counted its covered times.** -/
theorem durationLoop_counts {d e : ℤ} (he : e ≤ dayStart offset (d + 1)) (fuel : ℕ) (t : ℤ)
    (duration n : ℕ) (ht : 0 ≤ t) (hd : dayStart offset d ≤ t) (hte : t ≤ e)
    (hsmall : duration + (e - t).toNat < 2 ^ 32)
    (h : durationLoop offset tp e fuel t duration = some n) :
    n = duration + countIn (tp.Covered offset) t e := by
  induction fuel generalizing t duration with
  | zero => cases h
  | succ fuel ih =>
    rw [durationLoop] at h
    by_cases hstop : tp.get_next_valid offset t = -1 ∨ e < tp.get_next_valid offset t
    · rw [if_pos hstop] at h
      have hzero : countIn (tp.Covered offset) t e = 0 :=
        countIn_before_next ht hd he e (le_refl e) (hstop.imp_right fun hlt => hlt.le)
      rw [hzero, Nat.add_zero]
      exact (Option.some.inj h).symm
    · rw [if_neg hstop] at h
      rw [not_or, not_lt] at hstop
      obtain ⟨hne, hve⟩ := hstop
      have htv := le_get_next_valid ht hne
      have hend := get_next_invalid_spec offset tp (ht.trans htv)
      -- nothing is covered up to the time found, and all is up to the next invalid one
      have hskip := countIn_before_next ht hd he _ hve (Or.inr (le_refl _))
      rw [← countIn_add htv hve, hskip, Nat.zero_add]
      by_cases hlast : tp.get_next_invalid offset (tp.get_next_valid offset t) = -1 ∨
          e < tp.get_next_invalid offset (tp.get_next_valid offset t)
      · rw [if_pos hlast, Nat.mod_eq_of_lt (by omega)] at h
        rw [countIn_of_endless hend hlast]
        exact (Option.some.inj h).symm
      · rw [if_neg hlast] at h
        rw [not_or, not_lt] at hlast
        obtain ⟨hne', hwe⟩ := hlast
        have hvw := (hend.1 hne').1.1
        rw [Nat.mod_eq_of_lt (by omega)] at h
        rw [countIn_of_end hend hne' hwe, ← Nat.add_assoc]
        exact ih _ _ (by omega) (by omega) hwe (by omega) h

theorem duration_intersect_counts {d s e : ℤ} (hd : dayStart offset d ≤ s)
    (he : e ≤ dayStart offset (d + 1)) (hs : 0 ≤ s) {fuel n : ℕ}
    (h : tp.duration_intersect offset fuel s e = some n) :
    n = countIn (tp.Covered offset) s e := by
  by_cases hse : e < s
  · rw [duration_intersect, if_pos hse] at h
    rw [countIn_eq_zero fun u hsu hue => by omega]
    exact (Option.some.inj h).symm
  · rw [duration_intersect, if_neg hse] at h
    have hlength : (e - s).toNat < 2 ^ 32 := by
      simp only [dayStart] at hd he
      omega
    rw [durationLoop_counts he fuel s 0 n hs hd (not_lt.mp hse) (by omega) h, Nat.zero_add]

/-- Each turn of the loop gets further. -/
theorem lt_next_invalid (hbegins : tp.BeginsInDay) {t : ℤ} (ht : 0 ≤ t)
    (hv : tp.get_next_valid offset t ≠ -1)
    (hw : tp.get_next_invalid offset (tp.get_next_valid offset t) ≠ -1) :
    t < tp.get_next_invalid offset (tp.get_next_valid offset t) := by
  have htv := le_get_next_valid ht hv
  obtain ⟨⟨hvw, hout⟩, -⟩ := (get_next_invalid_spec offset tp (ht.trans htv)).1 hw
  rcases Int.lt_or_eq_of_le htv with hlt | heq
  · exact lt_of_lt_of_le hlt hvw
  · refine lt_of_le_of_ne (htv.trans hvw) fun hback => hout ?_
    rw [← hback]
    -- the time is found at once, in a range that has begun: one of its own day
    have hvalid : tp.is_valid offset t := ⟨by omega, heq.symm⟩
    refine covered_of_is_valid ht hvalid fun d _ hlater r hr => ?_
    have hstart := hbegins _ r (mem_ahead.mp hr).1
    have hlate := lt_dayStart_of_dayOf_lt hlater
    rw [startOn]
    omega

theorem durationLoop_ends (hbegins : tp.BeginsInDay) {e : ℤ} (fuel : ℕ) (t : ℤ) (duration : ℕ)
    (ht : 0 ≤ t) (hte : t ≤ e) (hfuel : (e - t).toNat < fuel) :
    (durationLoop offset tp e fuel t duration).isSome := by
  induction fuel generalizing t duration with
  | zero => omega
  | succ fuel ih =>
    rw [durationLoop]
    by_cases hstop : tp.get_next_valid offset t = -1 ∨ e < tp.get_next_valid offset t
    · rw [if_pos hstop]
      rfl
    · rw [if_neg hstop]
      rw [not_or, not_lt] at hstop
      by_cases hlast : tp.get_next_invalid offset (tp.get_next_valid offset t) = -1 ∨
          e < tp.get_next_invalid offset (tp.get_next_valid offset t)
      · rw [if_pos hlast]
        rfl
      · rw [if_neg hlast]
        rw [not_or, not_lt] at hlast
        have hlt := lt_next_invalid hbegins ht hstop.1 hlast.1
        exact ih _ _ (by omega) hlast.2 (by omega)

theorem duration_intersect_ends (hbegins : tp.BeginsInDay) {s e : ℤ} (hs : 0 ≤ s) {fuel : ℕ}
    (hfuel : (e - s).toNat < fuel) : (tp.duration_intersect offset fuel s e).isSome := by
  by_cases hse : e < s
  · rw [duration_intersect, if_pos hse]
    rfl
  · rw [duration_intersect, if_neg hse]
    exact durationLoop_ends hbegins fuel s 0 hs (not_lt.mp hse) hfuel

end Timeperiod

end CentreonBroker.Time

/-!
## How long an interval is in a time period

`duration_intersect` goes from the next valid time to the next invalid one. Each turn counts
the covered times up to where it gets, and gets further than where it started.
-/

namespace CentreonBroker.Time

open Spans Timerange

/-- Whole minutes of one day, at least one. -/
def Timerange.WellFormed (r : Timerange) : Prop :=
  r.start_time % 60 = 0 ∧ r.end_time % 60 = 0 ∧ r.start_time < r.end_time ∧ r.end_time ≤ 86400

instance : DecidablePred Timerange.WellFormed := fun _ => inferInstanceAs (Decidable (_ ∧ _))

theorem toInt32_of_lt {n : ℕ} (h : n < 2 ^ 31) : toInt32 n = n :=
  Int.bmod_eq_of_le (by omega) (by omega)

/-- The hours and the minutes of a whole minute make it. -/
theorem offset_eq {n : ℕ} (hminute : n % 60 = 0) (hday : n ≤ 86400) :
    toInt32 (n / (60 * 60)) * 3600 + toInt32 (n / 60 % 60) * 60 = n := by
  rw [toInt32_of_lt (by omega), toInt32_of_lt (by omega)]
  omega

theorem Timerange.WellFormed.startOffset {r : Timerange} (h : r.WellFormed) :
    r.startOffset = r.start_time := by
  obtain ⟨hstart, -, hlt, hend⟩ := h
  exact offset_eq hstart (by omega)

theorem Timerange.WellFormed.endOffset {r : Timerange} (h : r.WellFormed) :
    r.endOffset = r.end_time := by
  have hstart := h.startOffset
  obtain ⟨-, hminute, hlt, hend⟩ := h
  have hday : r.startOffset / 86400 = 0 := by omega
  rw [Timerange.endOffset, hday, zero_mul, zero_add]
  exact offset_eq hminute hend

theorem Timerange.WellFormed.proper {r : Timerange} (h : r.WellFormed) : r.Proper := by
  rw [Proper, h.startOffset, h.endOffset]
  obtain ⟨-, -, hlt, hend⟩ := h
  omega

namespace Timeperiod

variable (offset : ℤ) (tp : Timeperiod)

/-- The time of day is in a range of the day of the week. -/
def InRange (t : ℤ) : Prop :=
  ∃ r ∈ tp.get_timeranges_by_day (localtime offset t).tm_wday,
    r.start_time ≤ (t + offset) % 86400 ∧ (t + offset) % 86400 < r.end_time

instance : DecidablePred (tp.InRange offset) := fun t =>
  inferInstanceAs (Decidable (∃ r ∈ tp.get_timeranges_by_day (localtime offset t).tm_wday, _))

/-- With turns enough, `duration_intersect` returns `n`. -/
def Returns (start_time end_time : ℤ) (n : ℕ) : Prop :=
  ∃ turns, ∀ fuel, turns ≤ fuel → tp.duration_intersect offset fuel start_time end_time = some n

variable {offset tp}

theorem covered_iff_inRange (h : ∀ day, ∀ r ∈ tp.timeranges day, r.WellFormed) (t : ℤ) :
    tp.Covered offset t ↔ tp.InRange offset t := by
  have hday : t = dayStart offset (dayOf offset t) + (t + offset) % 86400 := by
    simp only [dayStart, dayOf]
    omega
  constructor
  · rintro ⟨r, hr, hle, hlt⟩
    rw [startOn, (h _ r hr).startOffset] at hle
    rw [endOn, (h _ r hr).endOffset] at hlt
    exact ⟨r, hr, by omega, by omega⟩
  · rintro ⟨r, hr, hle, hlt⟩
    refine ⟨r, hr, ?_, ?_⟩
    · rw [startOn, (h _ r hr).startOffset]
      omega
    · rw [endOn, (h _ r hr).endOffset]
      omega

/-- **The loop counts the times in the ranges**, as long as the searches are exact. -/
theorem durationLoop_eq {p : ℤ → Prop} [DecidablePred p]
    (hvalid : ∀ t, 0 ≤ t → FirstFrom p t (tp.get_next_valid offset t))
    (hinvalid : ∀ t, 0 ≤ t → FirstFrom (fun u => ¬ p u) t (tp.get_next_invalid offset t))
    {e : ℤ} (fuel : ℕ) (t : ℤ) (duration : ℕ) (ht : 0 ≤ t) (hte : t ≤ e)
    (hsmall : duration + (e - t).toNat < 2 ^ 32) (hfuel : (e - t).toNat < fuel) :
    durationLoop offset tp e fuel t duration = some (duration + countIn p t e) := by
  induction fuel generalizing t duration with
  | zero => omega
  | succ fuel ih =>
    have hnext := hvalid t ht
    rw [durationLoop]
    by_cases hstop : tp.get_next_valid offset t = -1 ∨ e < tp.get_next_valid offset t
    · rw [if_pos hstop, countIn_of_none hnext hstop, Nat.add_zero]
    · rw [if_neg hstop]
      rw [not_or, not_lt] at hstop
      obtain ⟨hne, hve⟩ := hstop
      obtain ⟨⟨htv, hpv⟩, -⟩ := hnext.1 hne
      have hend := hinvalid _ (ht.trans htv)
      rw [countIn_of_first hnext hne hve]
      by_cases hlast : tp.get_next_invalid offset (tp.get_next_valid offset t) = -1 ∨
          e < tp.get_next_invalid offset (tp.get_next_valid offset t)
      · rw [if_pos hlast, countIn_of_endless hend hlast, Nat.mod_eq_of_lt (by omega)]
      · rw [if_neg hlast]
        rw [not_or, not_lt] at hlast
        obtain ⟨hne', hwe⟩ := hlast
        obtain ⟨⟨hvw, hpw⟩, -⟩ := hend.1 hne'
        -- a time is not both valid and invalid, so that the turn gets further
        have hlt : tp.get_next_valid offset t <
            tp.get_next_invalid offset (tp.get_next_valid offset t) := by
          refine lt_of_le_of_ne hvw fun heq => hpw ?_
          rw [← heq]
          exact hpv
        rw [Nat.mod_eq_of_lt (by omega), ih _ _ (by omega) hwe (by omega) (by omega),
          countIn_of_end hend hne' hwe, Nat.add_assoc]

variable (offset) in
/-- **`duration_intersect` returns how many times of the interval are in the ranges.** -/
theorem returns_countIn (h : ∀ day, ∀ r ∈ tp.timeranges day, r.WellFormed) {s e : ℤ} (hs : 0 ≤ s)
    (hse : s ≤ e) (hlength : e - s < 2 ^ 32) :
    tp.Returns offset s e (countIn (tp.InRange offset) s e) := by
  have hharmless : Harmless offset tp := harmless_of_proper fun day r hr => (h day r hr).proper
  refine ⟨(e - s).toNat + 1, fun fuel hfuel => ?_⟩
  rw [duration_intersect, if_neg (not_lt.mpr hse)]
  rw [durationLoop_eq (p := tp.InRange offset) (fun t ht => ?_) (fun t ht => ?_) fuel s 0 hs hse
    (by omega) (by omega), Nat.zero_add]
  · exact (hharmless.next_covered ht).congr fun u _ => covered_iff_inRange h u
  · exact (get_next_invalid_spec offset tp ht).congr fun u _ => not_congr (covered_iff_inRange h u)

/--
**The duration law.** `duration_intersect` ends and counts the seconds of the interval that are
in a range of their weekday, and it adds up over two intervals side by side.
-/
theorem duration_law (offset : ℤ) (tp : Timeperiod)
    (h : ∀ day, ∀ r ∈ tp.timeranges day, r.WellFormed) (s e : ℤ) (hs : 0 ≤ s) (hse : s ≤ e)
    (hlength : e - s < 2 ^ 32) :
    tp.Returns offset s e ((Finset.Ico s e).filter (tp.InRange offset)).card ∧
      ∀ m, s ≤ m → m ≤ e → ∃ x y, tp.Returns offset s m x ∧ tp.Returns offset m e y ∧
        tp.Returns offset s e (x + y) := by
  have hwhole := returns_countIn offset h hs hse hlength
  refine ⟨hwhole, fun m hsm hme => ?_⟩
  refine ⟨_, _, returns_countIn offset h hs hsm (by omega), returns_countIn offset h (hs.trans hsm) hme (by omega),
    ?_⟩
  rwa [countIn_add hsm hme]

/-- Thursdays, in two ranges that overlap. -/
def thursdays : Timeperiod := ⟨fun day => if day = 4 then [⟨39600, 64800⟩, ⟨32400, 43200⟩] else []⟩

theorem thursdays_wellFormed : ∀ day, ∀ r ∈ thursdays.timeranges day, r.WellFormed := by
  intro day r hr
  by_cases hday : day = 4
  · have hall : ∀ r ∈ thursdays.timeranges 4, r.WellFormed := by decide
    subst hday
    exact hall r hr
  · have hempty : thursdays.timeranges day = [] := if_neg hday
    rw [hempty] at hr
    exact absurd hr List.not_mem_nil

theorem duration_law_thursdays :
    thursdays.Returns 0 0 1209600 ((Finset.Ico 0 1209600).filter (thursdays.InRange 0)).card :=
  (duration_law 0 thursdays thursdays_wellFormed 0 1209600 (by decide) (by decide) (by decide)).1

end Timeperiod

end CentreonBroker.Time
