import CentreonBroker.Time.Next

/-!
# When both searches are exact

A text is accepted whatever the two times of a range are. Where a range holds no time of its
day, the search for a valid time may still stop at it, and where a range begins on another day
(its hours are past 24, or do not fit in an `int`), that day is not asked for it. Both searches
are exact if and only if no range that is met does harm.
-/

namespace CentreonBroker.Time

open Spans Timerange

/-- A range that begins in its day, and ends after it begins. -/
def Timerange.Proper (r : Timerange) : Prop :=
  0 ≤ r.startOffset ∧ r.startOffset < 86400 ∧ r.startOffset < r.endOffset

namespace Timeperiod

/-- Both searches from `t` find the first time that they look for. -/
def Exact (offset : ℤ) (tp : Timeperiod) (t : ℤ) : Prop :=
  FirstFrom (tp.is_valid offset) t (tp.get_next_valid offset t) ∧
    FirstFrom (fun u => ¬ tp.is_valid offset u) t (tp.get_next_invalid offset t)

/-- What the ranges are like that end after a time, on the first day that has one. -/
structure Harmless (offset : ℤ) (tp : Timeperiod) : Prop where
  /-- Where that day is not the day of the time, they begin after the time. -/
  begins : ∀ t d, 0 ≤ t → StopsAt offset tp t d → dayOf offset t < d →
    ∀ r ∈ tp.ahead offset t d, t < r.startOn offset d
  /--
  When one begins, or at once, there is a covered time behind: one of that day, or else the
  first of all when a range of that day begins right there.
  -/
  leads : ∀ t d, 0 ≤ t → StopsAt offset tp t d → ∀ r ∈ tp.ahead offset t d,
    ∃ u, t ≤ u ∧ u ≤ max t (r.startOn offset d) ∧ tp.Covered offset u ∧
      (dayOf offset u = d ∨ (∃ r' ∈ tp.ahead offset t d, u = r'.startOn offset d) ∧
        ∀ u', t ≤ u' → u' < u → ¬ tp.Covered offset u')

section

variable {offset : ℤ} {tp : Timeperiod} {t : ℤ}

theorem mem_ahead_of_inDay {d u : ℤ} {r : Timerange} (hr : r ∈ tp.ranges d) (htu : t ≤ u)
    (hu : u < r.endOn offset d) : r ∈ tp.ahead offset t d :=
  mem_ahead.mpr ⟨hr, lt_of_le_of_lt htu hu⟩

/-- A covered time stops the search at its own day. -/
theorem stopsAt_of_covered (h : tp.Covered offset t) : StopsAt offset tp t (dayOf offset t) := by
  obtain ⟨r, hr, -, hlt⟩ := h
  exact ⟨List.ne_nil_of_mem (mem_ahead_of_inDay hr (le_refl t) hlt), le_refl _, by omega,
    fun d' hle hlt => by omega⟩

theorem is_valid_of_covered (ht : 0 ≤ t) (h : tp.Covered offset t) : tp.is_valid offset t := by
  have hstops := stopsAt_of_covered h
  obtain ⟨r, hr, hle, hlt⟩ := h
  exact (is_valid_iff ht).mpr ⟨_, hstops, r, mem_ahead_of_inDay hr (le_refl t) hlt, hle⟩

/-- A valid time is covered where the ranges of later days begin after it. -/
theorem covered_of_is_valid (ht : 0 ≤ t) (hvalid : tp.is_valid offset t)
    (hbegins : ∀ d, StopsAt offset tp t d → dayOf offset t < d →
      ∀ r ∈ tp.ahead offset t d, t < r.startOn offset d) : tp.Covered offset t := by
  obtain ⟨d, hd, r, hr, hle⟩ := (is_valid_iff ht).mp hvalid
  rcases Int.lt_or_eq_of_le hd.le with hlt | rfl
  · exact absurd (hbegins d hd hlt r hr) (not_lt.mpr hle)
  · obtain ⟨hr, hend⟩ := mem_ahead.mp hr
    exact ⟨r, hr, hle, hend⟩

theorem Harmless.is_valid_iff_covered (h : Harmless offset tp) (ht : 0 ≤ t) :
    tp.is_valid offset t ↔ tp.Covered offset t :=
  ⟨fun hvalid => covered_of_is_valid ht hvalid fun d => h.begins t d ht, is_valid_of_covered ht⟩

/-- A covered time is on the day that the search stops at, or later. -/
theorem StopsAt.le_dayOf {d u : ℤ} (h : StopsAt offset tp t d) (htu : t ≤ u)
    (hu : tp.Covered offset u) : d ≤ dayOf offset u := by
  by_contra hlt
  obtain ⟨r, hr, -, hend⟩ := hu
  have hempty := h.first (dayOf offset u) (dayOf_mono htu) (not_le.mp hlt)
  exact absurd (mem_ahead_of_inDay hr htu hend) (hempty ▸ List.not_mem_nil)

/-- **Where no range does harm, the search finds the first covered time.** -/
theorem Harmless.next_covered (h : Harmless offset tp) (ht : 0 ≤ t) :
    FirstFrom (tp.Covered offset) t (tp.get_next_valid offset t) := by
  rcases get_next_valid_spec offset tp ht with
    ⟨hv, hnone⟩ | ⟨hv, d, hd, r, hr, heq, hleast⟩
  · refine ⟨fun hne => absurd hv hne, fun _ u htu hu => ?_⟩
    -- the day of `u` is one of the seven that follow the first, some weeks later
    obtain ⟨q, hle, hlt⟩ : ∃ q, dayOf offset t < dayOf offset u - 7 * q ∧
        dayOf offset u - 7 * q < dayOf offset t + 8 :=
      ⟨(dayOf offset u - dayOf offset t - 1) / 7, by omega, by omega⟩
    obtain ⟨r, hr, hstart, hend⟩ := hu
    have hempty := hnone (dayOf offset u - 7 * q) hle.le hlt
    have hday : weekday (dayOf offset u - 7 * q) = weekday (dayOf offset u) := by
      have hweeks := weekday_add_weeks (dayOf offset u - 7 * q) q
      rwa [sub_add_cancel, eq_comm] at hweeks
    have hr' : r ∈ tp.ranges (dayOf offset u - 7 * q) := by
      rw [ranges, hday]
      exact hr
    have hlate := lt_dayStart_of_dayOf_lt hle
    have hpast := dayStart_dayOf_le offset u
    have hlt' : t < r.endOn offset (dayOf offset u - 7 * q) := by
      simp only [endOn, dayStart] at hend hlate hpast ⊢
      omega
    exact absurd (mem_ahead.mpr ⟨hr', hlt'⟩) (hempty ▸ List.not_mem_nil)
  · -- no covered time comes before the one that the search ends with
    have hbefore : ∀ u, t ≤ u → tp.Covered offset u → dayOf offset u = d →
        tp.get_next_valid offset t ≤ u := by
      intro u htu hu hday
      obtain ⟨r', hr', hstart, hend⟩ := hu
      rw [hday] at hr' hstart hend
      exact (hleast r' (mem_ahead_of_inDay hr' htu hend)).trans (max_le htu hstart)
    obtain ⟨u, htu, hur, hu, hplace⟩ := h.leads t d ht hd r hr
    rw [← heq] at hur
    have hu' : u = tp.get_next_valid offset t := by
      rcases hplace with hday | ⟨⟨r', hr', rfl⟩, -⟩
      · exact le_antisymm hur (hbefore u htu hu hday)
      · have hle := hleast r' hr'
        rw [max_eq_right htu] at hle
        exact le_antisymm hur hle
    refine ⟨fun _ => ?_, fun hne => absurd hne hv⟩
    rw [← hu']
    refine ⟨⟨htu, hu⟩, fun u' hcovered => ?_⟩
    obtain ⟨htu', hcovered⟩ := hcovered
    rcases hplace with hday | ⟨-, hfirst⟩
    · by_contra hlt
      have hd' : dayOf offset u' = d :=
        le_antisymm (hday ▸ dayOf_mono (not_le.mp hlt).le) (hd.le_dayOf htu' hcovered)
      exact hlt (hu' ▸ hbefore u' htu' hcovered hd')
    · by_contra hlt
      exact hfirst u' htu' (not_le.mp hlt) hcovered

theorem Harmless.exact (h : Harmless offset tp) (ht : 0 ≤ t) : Exact offset tp t := by
  constructor
  · exact (h.next_covered ht).congr fun u hu => (h.is_valid_iff_covered (ht.trans hu)).symm
  · exact (get_next_invalid_spec offset tp ht).congr fun u hu =>
      not_congr (h.is_valid_iff_covered (ht.trans hu)).symm

/-- **Exact searches mean that no range does harm.** -/
theorem harmless_of_exact (h : ∀ t, 0 ≤ t → Exact offset tp t) : Harmless offset tp := by
  have hbegins : ∀ t d, 0 ≤ t → StopsAt offset tp t d → dayOf offset t < d →
      ∀ r ∈ tp.ahead offset t d, t < r.startOn offset d := by
    intro t d ht hd hlater r hr
    by_contra hle
    have hvalid := (is_valid_iff ht).mpr ⟨d, hd, r, hr, not_lt.mp hle⟩
    -- the day of `t` has no range for it, and no other day is asked
    have hout : ¬ tp.Covered offset t := by
      intro hcovered
      have hday := hd.unique (stopsAt_of_covered hcovered)
      omega
    have hnext := get_next_invalid_spec offset tp ht
    have hne : tp.get_next_invalid offset t ≠ -1 := fun hnone => hnext.2 hnone t (le_refl t) hout
    have hself : tp.get_next_invalid offset t = t :=
      le_antisymm ((hnext.1 hne).2 ⟨le_refl t, hout⟩) (hnext.1 hne).1.1
    have hexact := ((h t ht).2.1 hne).1.2
    rw [hself] at hexact
    exact hexact hvalid
  refine ⟨hbegins, fun t d ht hd r hr => ?_⟩
  have hvalid_iff : ∀ u, 0 ≤ u → (tp.is_valid offset u ↔ tp.Covered offset u) := fun u hu =>
    ⟨fun hvalid => covered_of_is_valid hu hvalid fun d => hbegins u d hu, is_valid_of_covered hu⟩
  rcases get_next_valid_spec offset tp ht with
    ⟨-, hnone⟩ | ⟨hv, d', hd', r', hr', heq, hleast⟩
  · exact absurd (hnone d hd.le hd.lt) hd.ahead
  · obtain rfl := hd.unique hd'
    obtain ⟨⟨hle, hvalid⟩, hfirst⟩ := (h t ht).1.1 hv
    have hcovered := (hvalid_iff _ (ht.trans hle)).mp hvalid
    refine ⟨_, hle, hleast r hr, hcovered, ?_⟩
    rcases max_choice t (r'.startOn offset d) with hmax | hmax
    · left
      rw [heq, hmax] at hcovered ⊢
      exact (hd.unique (stopsAt_of_covered hcovered)).symm
    · refine Or.inr ⟨⟨r', hr', heq.trans hmax⟩, fun u' htu' hlt hu' => ?_⟩
      have hle' := hfirst ⟨htu', (hvalid_iff u' (ht.trans htu')).mpr hu'⟩
      omega

/-- A proper range that ends after a time holds the time, or begins after it, in its day. -/
theorem harmless_of_proper (h : ∀ day, ∀ r ∈ tp.timeranges day, r.Proper) :
    Harmless offset tp := by
  have hstart : ∀ t d, ∀ r ∈ tp.ahead offset t d, dayStart offset d ≤ r.startOn offset d ∧
      r.startOn offset d < dayStart offset (d + 1) ∧ r.startOn offset d < r.endOn offset d := by
    intro t d r hr
    obtain ⟨hlow, hhigh, hlt⟩ := h _ r (mem_ahead.mp hr).1
    simp only [startOn, endOn, dayStart]
    omega
  have hbegins : ∀ t d, dayOf offset t < d → ∀ r ∈ tp.ahead offset t d, t < r.startOn offset d :=
    fun t d hlater r hr => lt_of_lt_of_le (lt_dayStart_of_dayOf_lt hlater) (hstart t d r hr).1
  refine ⟨fun t d _ _ => hbegins t d, fun t d ht hd r hr => ?_⟩
  obtain ⟨hlow, hhigh, hlt⟩ := hstart t d r hr
  obtain ⟨hmem, hend⟩ := mem_ahead.mp hr
  by_cases hbegun : r.startOn offset d ≤ t
  · have hday : dayOf offset t = d := by
      rcases Int.lt_or_eq_of_le hd.le with hlater | heq
      · exact absurd (hbegins t d hlater r hr) (not_lt.mpr hbegun)
      · exact heq
    refine ⟨t, le_refl t, le_max_left _ _, ?_, Or.inl hday⟩
    rw [Covered, hday]
    exact ⟨r, hmem, hbegun, hend⟩
  · have hday : dayOf offset (r.startOn offset d) = d := dayOf_eq_iff.mpr ⟨hlow, hhigh⟩
    refine ⟨r.startOn offset d, (not_le.mp hbegun).le, le_max_right _ _, ?_, Or.inl hday⟩
    rw [Covered, hday]
    exact ⟨r, hmem, le_refl _, hlt⟩

end

/--
**Both searches are exact for a time period if and only if none of its ranges does harm**, and
none does where each begins in its day and ends after it begins.
-/
theorem exact_iff (offset : ℤ) (tp : Timeperiod) :
    ((∀ t, 0 ≤ t → Exact offset tp t) ↔ Harmless offset tp) ∧
      ((∀ day, ∀ r ∈ tp.timeranges day, r.Proper) → Harmless offset tp) :=
  ⟨⟨harmless_of_exact, fun h _ => h.exact⟩, harmless_of_proper⟩

/-- Thursdays from 22:00 to 06:00. -/
def overnight : Timeperiod :=
  ((⟨fun _ => []⟩ : Timeperiod).set_timerange "22:00-06:00".toList 4).2

theorem built_overnight : Built overnight :=
  Built.set "22:00-06:00".toList 4 Built.empty (by decide) rfl

/-- At 05:00 of a Thursday the next valid time is 22:00, and that time is not valid. -/
theorem not_exact : ¬ ∀ (offset : ℤ) (tp : Timeperiod), Built tp → ∀ t, 0 ≤ t →
    Exact offset tp t := by
  intro h
  have hnext : overnight.get_next_valid 0 18000 = 79200 := by decide +kernel
  have hvalid : ¬ overnight.is_valid 0 79200 := by decide +kernel
  have hexact := (h 0 overnight built_overnight 18000 (by decide)).1.1
  rw [hnext] at hexact
  exact hvalid (hexact (by decide)).1.2

end Timeperiod

end CentreonBroker.Time
