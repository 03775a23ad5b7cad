import CentreonBroker.Time.Daterange
import CentreonBroker.Time.Exact

/-!
# Exceptions and excluded time periods

A time period has dates with ranges of their own, and pointers to time periods that it excludes.
Both are kept, and neither search reads them. So a time period is right about its exceptions and
its exclusions if and only if they change nothing in what the search makes of its weekly ranges.
-/

namespace CentreonBroker.Time

open Timerange

/-- A time period with its exceptions that are calendar dates, and pointers to what it excludes. -/
structure Period where
  weekly : Timeperiod
  exceptions : List Daterange
  excluded : List ℕ

namespace Period

/-- `add_exception`, for texts that `build_calendar_date` takes. -/
def add_exception (days range : List Char) (p : Period) : Bool × Period :=
  let (ok, exceptions) := Daterange.build_calendar_date (days ++ ' ' :: range) p.exceptions
  (ok, { p with exceptions := exceptions })

def add_excluded (excluded : ℕ) (p : Period) : Period :=
  { p with excluded := p.excluded ++ [excluded] }

/-- Both searches read `_timeranges` only. -/
def is_valid (offset : ℤ) (p : Period) (preferred_time : ℤ) : Prop :=
  p.weekly.is_valid offset preferred_time

def get_next_valid (offset : ℤ) (p : Period) (preferred_time : ℤ) : ℤ :=
  p.weekly.get_next_valid offset preferred_time

/-- What accepted texts make, without intervals that skip days. -/
inductive Built : Period → Prop
  | weekly {tp : Timeperiod} (built : tp.Built) : Built ⟨tp, [], []⟩
  | exception {p p' : Period} (days range : List Char) (tail : Built p)
      (accepted : p.add_exception days range = (true, p'))
      (every : ∀ d ∈ p'.exceptions, d.skip_interval = 0) : Built p'
  | excluded {p : Period} (pointer : ℕ) (tail : Built p) : Built (p.add_excluded pointer)

end Period

variable (offset : ℤ)

/-- An exception covers a time: the interval of its days has it. -/
def Daterange.Covers (d : Daterange) (t : ℤ) : Prop :=
  ∃ s e, d.calendar_date_to_time_t offset = some (s, e) ∧ s ≤ t ∧ (e = -1 ∨ t < e)

/-- The time of the day is in the ranges of an exception. -/
def Daterange.Holds (d : Daterange) (t : ℤ) : Prop :=
  ∃ r ∈ d.timeranges, r.startOn offset (dayOf offset t) ≤ t ∧ t < r.endOn offset (dayOf offset t)

namespace Period

/-- In the ranges of an exception where there is one, in those of the day of the week elsewhere. -/
def Scheduled (p : Period) (t : ℤ) : Prop :=
  (∃ d ∈ p.exceptions, d.Covers offset t ∧ d.Holds offset t) ∨
    (∀ d ∈ p.exceptions, ¬ d.Covers offset t) ∧ p.weekly.Covered offset t

/-- A time that is scheduled, and not valid in any excluded time period. -/
def Proper (periods : ℕ → Period) (p : Period) (t : ℤ) : Prop :=
  p.Scheduled offset t ∧ ∀ e ∈ p.excluded, ¬ (periods e).is_valid offset t

/-- Exceptions and exclusions are honoured. The search looks at eight days. -/
structure Honours (periods : ℕ → Period) (p : Period) : Prop where
  valid : ∀ t, 0 ≤ t → (p.is_valid offset t ↔ p.Proper offset periods t)
  next : ∀ t, 0 ≤ t → p.get_next_valid offset t ≠ -1 →
    IsLeast {u | t ≤ u ∧ p.Proper offset periods u} (p.get_next_valid offset t)
  none : ∀ t, 0 ≤ t → p.get_next_valid offset t = -1 →
    ∀ u, t ≤ u → dayOf offset u < dayOf offset t + 8 → ¬ p.Proper offset periods u

end Period

namespace Timeperiod

/--
A range has begun, on the first of the eight days from the one of `t` that has a range which ends
after `t`.
-/
def Met (tp : Timeperiod) (t : ℤ) : Prop :=
  ∃ d, StopsAt offset tp t d ∧ ∃ r ∈ tp.ahead offset t d, r.startOn offset d ≤ t

/-- The weekly ranges lead to the first time that one of them is met. -/
structure Leads (tp : Timeperiod) : Prop where
  /-- Eight days without a range that ends after `t` have no time that one is met. -/
  none : ∀ t, 0 ≤ t → (∀ d, ¬ StopsAt offset tp t d) →
    ∀ u, t ≤ u → dayOf offset u < dayOf offset t + 8 → ¬ tp.Met offset u
  /--
  When a range begins, or at once, there is such a time behind: one that stops at the same day,
  or else the first of all when a range of that day begins right there.
  -/
  leads : ∀ t d, 0 ≤ t → StopsAt offset tp t d → ∀ r ∈ tp.ahead offset t d,
    ∃ u, t ≤ u ∧ u ≤ max t (r.startOn offset d) ∧ tp.Met offset u ∧
      (StopsAt offset tp u d ∨ (∃ r' ∈ tp.ahead offset t d, u = r'.startOn offset d) ∧
        ∀ u', t ≤ u' → u' < u → ¬ tp.Met offset u')

end Timeperiod

/-- Exceptions and exclusions change nothing. -/
structure Period.Redundant (periods : ℕ → Period) (p : Period) : Prop where
  leads : p.weekly.Leads offset
  /-- On a day without an exception, the weekly ranges of later days begin after the time. -/
  begins : ∀ t d, 0 ≤ t → (∀ e ∈ p.exceptions, ¬ e.Covers offset t) →
    Timeperiod.StopsAt offset p.weekly t d → dayOf offset t < d →
    ∀ r ∈ p.weekly.ahead offset t d, t < r.startOn offset d
  /-- On one with exceptions, the weekly ranges are met in the ranges of these only. -/
  within : ∀ t, 0 ≤ t → (∃ d ∈ p.exceptions, d.Covers offset t) → p.weekly.Met offset t →
    ∃ d ∈ p.exceptions, d.Covers offset t ∧ d.Holds offset t
  apart : ∀ t, 0 ≤ t → p.weekly.Met offset t → ∀ e ∈ p.excluded, ¬ (periods e).weekly.Met offset t
  /-- An exception adds no time, unless it is excluded. -/
  beyond : ∀ t, 0 ≤ t → (∃ d ∈ p.exceptions, d.Covers offset t ∧ d.Holds offset t) →
    (∀ e ∈ p.excluded, ¬ (periods e).weekly.Met offset t) → p.weekly.Met offset t

/-! ## The search of the weekly ranges -/

section

variable {offset : ℤ}

namespace Timeperiod

variable {tp : Timeperiod} {t : ℤ}

theorem StopsAt.le_of_le {u d d' : ℤ} (h : StopsAt offset tp t d) (h' : StopsAt offset tp u d')
    (htu : t ≤ u) : d ≤ d' := by
  by_contra hlt
  have hday : dayOf offset t ≤ dayOf offset u := dayOf_mono htu
  have hempty := h.first d' (hday.trans h'.le) (not_le.mp hlt)
  obtain ⟨r, hr⟩ := List.exists_mem_of_ne_nil _ h'.ahead
  obtain ⟨hmem, hend⟩ := mem_ahead.mp hr
  have hr' : r ∈ tp.ahead offset t d' := mem_ahead.mpr ⟨hmem, lt_of_le_of_lt htu hend⟩
  rw [hempty] at hr'
  exact absurd hr' List.not_mem_nil

/-- What the search for a valid time should find. -/
def Finds (offset : ℤ) (tp : Timeperiod) (p : ℤ → Prop) (t : ℤ) : Prop :=
  (tp.get_next_valid offset t ≠ -1 → IsLeast {u | t ≤ u ∧ p u} (tp.get_next_valid offset t)) ∧
    (tp.get_next_valid offset t = -1 →
      ∀ u, t ≤ u → dayOf offset u < dayOf offset t + 8 → ¬ p u)

theorem Finds.congr {p q : ℤ → Prop} (h : Finds offset tp p t) (hpq : ∀ u, t ≤ u → (p u ↔ q u)) :
    Finds offset tp q t := by
  have hset : {u | t ≤ u ∧ p u} = {u | t ≤ u ∧ q u} :=
    Set.ext fun u => and_congr_right fun htu => hpq u htu
  refine ⟨fun hv => ?_, fun hv u htu hday hq => ?_⟩
  · rw [← hset]
    exact h.1 hv
  · exact h.2 hv u htu hday ((hpq u htu).mpr hq)

/-- **The search finds the first time that is met where the ranges lead to it.** -/
theorem Leads.finds (h : tp.Leads offset) (ht : 0 ≤ t) : Finds offset tp (tp.Met offset) t := by
  rcases get_next_valid_spec offset tp ht with
    ⟨hv, hnone⟩ | ⟨hv, d, hd, r, hr, heq, hleast⟩
  · refine ⟨fun hne => absurd hv hne, fun _ => h.none t ht fun d hd => ?_⟩
    exact hd.ahead (hnone d hd.le hd.lt)
  · refine ⟨fun _ => ?_, fun hnone => absurd hnone hv⟩
    -- a time that is met at the day of the search is not before what the search finds
    have hlate : ∀ u, t ≤ u → StopsAt offset tp u d → tp.Met offset u →
        tp.get_next_valid offset t ≤ u := by
      rintro u htu hu ⟨d', hd', r', hr', hbegun⟩
      obtain rfl := hu.unique hd'
      obtain ⟨hmem, hend⟩ := mem_ahead.mp hr'
      have hle := hleast r' (mem_ahead.mpr ⟨hmem, lt_of_le_of_lt htu hend⟩)
      exact hle.trans (max_le htu hbegun)
    obtain ⟨u, htu, hur, hmet, hplace⟩ := h.leads t d ht hd r hr
    rw [← heq] at hur
    rcases hplace with hu | ⟨⟨r', hr', rfl⟩, hfirst⟩
    · obtain rfl : u = tp.get_next_valid offset t := le_antisymm hur (hlate u htu hu hmet)
      refine ⟨⟨htu, hmet⟩, fun u' hu' => ?_⟩
      obtain ⟨htu', hmet'⟩ := hu'
      by_contra hlt
      -- an earlier time stops between the two, so at the same day
      obtain ⟨d', hd', hrest⟩ := hmet'
      have hd'' := hd'.le_of_le hu (not_le.mp hlt).le
      obtain rfl : d = d' := le_antisymm (hd.le_of_le hd' htu') hd''
      exact hlt (hlate u' htu' hd' ⟨d, hd', hrest⟩)
    · have hle := hleast r' hr'
      rw [max_eq_right htu] at hle
      have hsame := le_antisymm hle hur
      rw [hsame]
      refine ⟨⟨htu, hmet⟩, fun u' hu' => ?_⟩
      by_contra hlt
      exact hfirst u' hu'.1 (not_le.mp hlt) hu'.2

theorem leads_of_finds (h : ∀ t, 0 ≤ t → Finds offset tp (tp.Met offset) t) : tp.Leads offset := by
  refine ⟨fun t ht hnone => ?_, fun t d ht hd r hr => ?_⟩
  · rcases get_next_valid_spec offset tp ht with ⟨hv, -⟩ | ⟨-, d, hd, -⟩
    · exact (h t ht).2 hv
    · exact absurd hd (hnone d)
  · rcases get_next_valid_spec offset tp ht with
      ⟨-, hnone⟩ | ⟨hv, d', hd', r', hr', heq, hleast⟩
    · exact absurd (hnone d hd.le hd.lt) hd.ahead
    · obtain rfl := hd.unique hd'
      obtain ⟨⟨hle, hmet⟩, hfirst⟩ := (h t ht).1 hv
      refine ⟨_, hle, hleast r hr, hmet, ?_⟩
      rcases max_choice t (r'.startOn offset d) with hmax | hmax
      · left
        rw [heq, hmax]
        exact hd
      · refine Or.inr ⟨⟨r', hr', heq.trans hmax⟩, fun u' htu' hlt hmet' => ?_⟩
        have hle' := hfirst ⟨htu', hmet'⟩
        omega

end Timeperiod

/-! ## Exceptions and exclusions -/

namespace Period

variable {periods : ℕ → Period} {p : Period}

theorem Redundant.met_iff (h : p.Redundant offset periods) {t : ℤ} (ht : 0 ≤ t) :
    p.weekly.Met offset t ↔ p.Proper offset periods t := by
  have hexcluded : ∀ e, (periods e).is_valid offset t ↔ (periods e).weekly.Met offset t :=
    fun e => Timeperiod.is_valid_iff ht
  constructor
  · intro hmet
    refine ⟨?_, fun e he hvalid => h.apart t ht hmet e he ((hexcluded e).mp hvalid)⟩
    by_cases hcovers : ∃ d ∈ p.exceptions, d.Covers offset t
    · exact Or.inl (h.within t ht hcovers hmet)
    · have hnone : ∀ d ∈ p.exceptions, ¬ d.Covers offset t := fun d hd hd' => hcovers ⟨d, hd, hd'⟩
      exact Or.inr ⟨hnone, Timeperiod.covered_of_is_valid ht ((Timeperiod.is_valid_iff ht).mpr hmet)
        fun d => h.begins t d ht hnone⟩
  · rintro ⟨hscheduled, hapart⟩
    rcases hscheduled with hexception | ⟨-, hcovered⟩
    · exact h.beyond t ht hexception fun e he hmet => hapart e he ((hexcluded e).mpr hmet)
    · exact (Timeperiod.is_valid_iff ht).mp (Timeperiod.is_valid_of_covered ht hcovered)

theorem redundant_of_honours (h : p.Honours offset periods) : p.Redundant offset periods := by
  have hmet : ∀ t, 0 ≤ t → (p.weekly.Met offset t ↔ p.Proper offset periods t) := by
    intro t ht
    rw [← h.valid t ht]
    exact (Timeperiod.is_valid_iff ht).symm
  refine
    { leads := Timeperiod.leads_of_finds fun t ht => ?_
      begins := fun t d ht hnone hd hlater r hr => ?_
      within := fun t ht hcovers ht' => ?_
      apart := fun t ht ht' e he hexcluded => ?_
      beyond := fun t ht hexception hapart => ?_ }
  · have hfinds : Timeperiod.Finds offset p.weekly (p.Proper offset periods) t :=
      ⟨h.next t ht, h.none t ht⟩
    exact hfinds.congr fun u htu => (hmet u (ht.trans htu)).symm
  · by_contra hbegun
    -- the time would be one of the schedule, so in a range of its own day
    rcases ((hmet t ht).mp ⟨d, hd, r, hr, not_lt.mp hbegun⟩).1 with ⟨e, he, hcovers, -⟩ | ⟨-, hcovered⟩
    · exact hnone e he hcovers
    · have hday := hd.unique (Timeperiod.stopsAt_of_covered hcovered)
      omega
  · obtain ⟨d, hd, hcovers⟩ := hcovers
    exact ((hmet t ht).mp ht').1.resolve_right fun hscheduled => hscheduled.1 d hd hcovers
  · exact ((hmet t ht).mp ht').2 e he ((Timeperiod.is_valid_iff ht).mpr hexcluded)
  · exact (hmet t ht).mpr ⟨Or.inl hexception, fun e he hvalid =>
      hapart e he ((Timeperiod.is_valid_iff ht).mp hvalid)⟩

/-- Weekly ranges that begin in their day, and end after they begin, are met where they are. -/
theorem met_of_proper {tp : Timeperiod} (h : ∀ day, ∀ r ∈ tp.timeranges day, Timerange.Proper r) :
    tp.Leads offset ∧ ∀ t, 0 ≤ t → (tp.Met offset t ↔ tp.Covered offset t) := by
  have hharmless : Timeperiod.Harmless offset tp := Timeperiod.harmless_of_proper h
  have hmet : ∀ t, 0 ≤ t → (tp.Met offset t ↔ tp.Covered offset t) := fun t ht =>
    (Timeperiod.is_valid_iff ht).symm.trans (hharmless.is_valid_iff_covered ht)
  refine ⟨Timeperiod.leads_of_finds fun t ht => ?_, hmet⟩
  have hnext := hharmless.next_covered ht
  have hfinds : Timeperiod.Finds offset tp (tp.Covered offset) t :=
    ⟨hnext.1, fun hv u htu _ => hnext.2 hv u htu⟩
  exact hfinds.congr fun u htu => (hmet u (ht.trans htu)).symm

/--
**Exceptions and exclusions are honoured if and only if they change nothing.** Weekly ranges that
begin in their day and end after they begin lead to the times that are in them.
-/
theorem honours_iff (offset : ℤ) (periods : ℕ → Period) (p : Period) :
    (p.Honours offset periods ↔ p.Redundant offset periods) ∧
      ((∀ day, ∀ r ∈ p.weekly.timeranges day, Timerange.Proper r) →
        p.weekly.Leads offset ∧ ∀ t, 0 ≤ t → (p.weekly.Met offset t ↔ p.weekly.Covered offset t)) := by
  refine ⟨⟨redundant_of_honours, fun h => ?_⟩, met_of_proper⟩
  have hfinds : ∀ t, 0 ≤ t → Timeperiod.Finds offset p.weekly (p.Proper offset periods) t :=
    fun t ht => (h.leads.finds ht).congr fun u htu => h.met_iff (ht.trans htu)
  refine
    { valid := fun t ht => ?_
      next := fun t ht => (hfinds t ht).1
      none := fun t ht => (hfinds t ht).2 }
  exact (Timeperiod.is_valid_iff ht).trans (h.met_iff ht)

/-- The 28th of January 2013, from 11:00 to 13:00, and nothing else. -/
def noon : Period :=
  ((⟨⟨fun _ => []⟩, [], []⟩ : Period).add_exception "2013-01-28".toList "11:00-13:00".toList).2

theorem built_noon : noon.Built :=
  Built.exception "2013-01-28".toList "11:00-13:00".toList (Built.weekly Timeperiod.Built.empty)
    rfl (by decide +kernel)

/-- At 12:00 of that day the time period is not valid. -/
theorem not_honours : ¬ ∀ (offset : ℤ) (periods : ℕ → Period), (∀ e, (periods e).Built) →
    ∀ p : Period, p.Built → p.Honours offset periods := by
  intro h
  have hhonours := h 0 (fun _ => noon) (fun _ => built_noon) noon built_noon
  have hexceptions : noon.exceptions = [⟨2013, 0, 28, 2013, 0, 28, 0, [⟨39600, 46800⟩]⟩] := by
    decide +kernel
  have hnoon : noon.Proper 0 (fun _ => noon) 1359374400 := by
    have hexcluded : noon.excluded = [] := rfl
    refine ⟨Or.inl ⟨⟨2013, 0, 28, 2013, 0, 28, 0, [⟨39600, 46800⟩]⟩, ?_, ?_, ?_⟩, ?_⟩
    · rw [hexceptions]
      exact List.mem_cons_self
    · exact ⟨1359331200, 1359417600, by decide +kernel, by decide, Or.inr (by decide)⟩
    · exact ⟨⟨39600, 46800⟩, List.mem_cons_self, by decide +kernel, by decide +kernel⟩
    · rw [hexcluded]
      exact fun e he => absurd he List.not_mem_nil
  have hvalid : ¬ noon.weekly.is_valid 0 1359374400 := by decide +kernel
  exact hvalid ((hhonours.valid 1359374400 (by decide)).mpr hnoon)

end Period

end

end CentreonBroker.Time
