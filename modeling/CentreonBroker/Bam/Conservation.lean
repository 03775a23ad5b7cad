import CentreonBroker.Bam.AvailabilityLaw

/-!
# Availability accounting is conservative

Over events that follow each other without a gap, the buckets of a day add up to what the time
period has of the day, and each second is in the bucket of the one event that it is in. Over
any consecutive days, an event that is not an available one is counted as opened once, on the
day it starts.
-/

namespace CentreonBroker.Bam

open Time Spans AvailabilityBuilder

/-- An event is counted as opened on a day. -/
def OpenedOn (offset : ℤ) (tp : Timeperiod) (e : AddedEvent) (d : ℤ) : Prop :=
  ∃ fuel b, (ofDay offset d).add_event offset fuel tp e = some b ∧ ∃ k, b.opened k = 1

/-- The events cover a day. -/
def CoversDay (offset d start : ℤ) (stop : Option ℤ) : Prop :=
  start ≤ dayStart offset d ∧ ∀ s ∈ stop, dayStart offset (d + 1) ≤ s

/-- What a second of the day is in a bucket for. -/
def InBucket (offset : ℤ) (tp : Timeperiod) (events : List AddedEvent) (k : Bucket) (t : ℤ) : Prop :=
  tp.Covered offset t ∧ ∃ e ∈ events, e.bucket = k ∧ e.Holds t

instance (offset : ℤ) (tp : Timeperiod) (events : List AddedEvent) (k : Bucket) :
    DecidablePred (InBucket offset tp events k) := fun _ => inferInstanceAs (Decidable (_ ∧ _))

section

variable {offset : ℤ} {tp : Timeperiod} {events : List AddedEvent} {start : ℤ} {stop : Option ℤ}

theorem Contiguous.secondsOf_eq (h : Contiguous start events stop) (d : ℤ) (k : Bucket) :
    secondsOf offset tp d events k = countIn (InBucket offset tp events k) (dayStart offset d)
      (dayStart offset (d + 1)) :=
  h.sum_seconds offset tp d (fun e => e.bucket = k)

variable (offset) in
theorem countIn_day_le (p : ℤ → Prop) [DecidablePred p] (d : ℤ) :
    countIn p (dayStart offset d) (dayStart offset (d + 1)) ≤ 86400 := by
  refine countIn_le.trans ?_
  simp only [dayStart]
  omega

variable {d : ℤ} {b : AvailabilityBuilder}

/-- What each bucket holds at the end of a day. -/
theorem Contiguous.time_eq (h : Contiguous start events stop)
    (hday : 0 ≤ dayStart offset d) {fuel : ℕ}
    (hb : (ofDay offset d).add_events offset fuel tp events = some b) (k : Bucket) :
    b.time k = countIn (InBucket offset tp events k) (dayStart offset d)
      (dayStart offset (d + 1)) := by
  obtain ⟨htime, -⟩ := add_events_spec (of_ofDay offset d) hday h.ordered hb
  have hle := countIn_day_le offset (InBucket offset tp events k) d
  have hk := htime k
  rw [ofDay, time_new, h.secondsOf_eq] at hk
  rw [hk (le_refl 0) (by omega), zero_add]

variable (offset tp) in
/-- The five buckets share the seconds of the events. -/
theorem sum_buckets (d : ℤ) (events : List AddedEvent) :
    secondsOf offset tp d events .available + secondsOf offset tp d events .degraded +
        secondsOf offset tp d events .unavailable + secondsOf offset tp d events .unknown +
        secondsOf offset tp d events .downtime =
      (events.map fun e => if True then e.seconds offset tp d else 0).sum := by
  induction events with
  | nil => rfl
  | cons e rest ih =>
    simp only [secondsOf, List.map_cons, List.sum_cons] at ih ⊢
    cases e.bucket <;> simp <;> simp at ih <;> omega

/-- In a day that the events cover, a second of the time period is in one of them. -/
theorem Contiguous.sum_covered (h : Contiguous start events stop)
    (hcovers : CoversDay offset d start stop) :
    (events.map fun e => if True then e.seconds offset tp d else 0).sum =
      countIn (tp.Covered offset) (dayStart offset d) (dayStart offset (d + 1)) := by
  rw [h.sum_seconds offset tp d fun _ => True]
  refine countIn_congr fun u hu hu' => ⟨fun hin => hin.1, fun hin => ⟨hin, ?_⟩⟩
  obtain ⟨e, ⟨he, hholds⟩, -⟩ := h.existsUnique (hcovers.1.trans hu)
    fun s hs => lt_of_lt_of_le hu' (hcovers.2 s hs)
  exact ⟨e, he, trivial, hholds⟩

theorem Contiguous.total_eq (h : Contiguous start events stop)
    (hcovers : CoversDay offset d start stop) (hday : 0 ≤ dayStart offset d) {fuel : ℕ}
    (hb : (ofDay offset d).add_events offset fuel tp events = some b) :
    b.total = countIn (tp.Covered offset) (dayStart offset d) (dayStart offset (d + 1)) := by
  have htime := h.time_eq hday hb
  have hsum := sum_buckets offset tp d events
  rw [h.sum_covered hcovers, h.secondsOf_eq, h.secondsOf_eq, h.secondsOf_eq, h.secondsOf_eq,
    h.secondsOf_eq] at hsum
  have havailable : b.available = _ := htime .available
  have hdegraded : b.degraded = _ := htime .degraded
  have hunavailable : b.unavailable = _ := htime .unavailable
  have hunknown : b.unknown = _ := htime .unknown
  have hdowntime : b.downtime = _ := htime .downtime
  rw [total, havailable, hdegraded, hunavailable, hunknown, hdowntime]
  omega

/-! ## Openings -/

/-- The events of a bucket that start from `s` on and before `t`. -/
def openings (events : List AddedEvent) (k : Bucket) (s t : ℤ) : ℕ :=
  (events.filter fun e => e.bucket = k ∧ e.OpenedIn s t).length

theorem openings_cons (e : AddedEvent) (rest : List AddedEvent) (k : Bucket) (s t : ℤ) :
    openings (e :: rest) k s t =
      (if e.bucket = k ∧ e.OpenedIn s t then 1 else 0) + openings rest k s t := by
  rw [openings, List.filter_cons]
  by_cases hin : e.bucket = k ∧ e.OpenedIn s t
  · rw [if_pos (decide_eq_true hin), if_pos hin, List.length_cons, Nat.add_comm]
    rfl
  · rw [if_neg (by simpa using hin), if_neg hin, Nat.zero_add]
    rfl

theorem openings_add (events : List AddedEvent) (k : Bucket) {s m t : ℤ} (hsm : s ≤ m)
    (hmt : m ≤ t) : openings events k s m + openings events k m t = openings events k s t := by
  induction events with
  | nil => rfl
  | cons e rest ih =>
    simp only [openings_cons, AddedEvent.OpenedIn]
    by_cases hk : e.bucket = k
    · simp only [hk, true_and]
      split <;> split <;> split <;> omega
    · simp only [hk, false_and, if_false]
      omega

theorem dayStart_mono {d' : ℤ} (h : d ≤ d') : dayStart offset d ≤ dayStart offset d' := by
  simp only [dayStart]
  omega

theorem opened_eq (he : ∀ e ∈ events, e.Ordered) (hday : 0 ≤ dayStart offset d) {fuel : ℕ}
    (hb : (ofDay offset d).add_events offset fuel tp events = some b)
    {k : Bucket} (hk : k ≠ .available) :
    b.opened k = openings events k (dayStart offset d) (dayStart offset (d + 1)) := by
  obtain ⟨-, hopened⟩ := add_events_spec (of_ofDay offset d) hday he hb
  rw [hopened k hk, ofDay, opened_new, zero_add]
  rfl

/-- **Over consecutive days, each opening is counted once.** -/
theorem sum_opened (he : ∀ e ∈ events, e.Ordered) (hday : 0 ≤ dayStart offset d)
    (bs : ℕ → AvailabilityBuilder) {k : Bucket} (hk : k ≠ .available) (n : ℕ)
    (hbs : ∀ i < n, ∃ fuel, (ofDay offset (d + i)).add_events offset fuel tp events = some (bs i)) :
    ∑ i ∈ Finset.range n, (bs i).opened k =
      openings events k (dayStart offset d) (dayStart offset (d + n)) := by
  induction n with
  | zero =>
    have hnone : openings events k (dayStart offset d) (dayStart offset (d + (0 : ℕ))) = 0 := by
      refine List.length_eq_zero_iff.mpr (List.filter_eq_nil_iff.mpr fun e _ h => ?_)
      have hin := (of_decide_eq_true h).2
      rw [Nat.cast_zero, add_zero] at hin
      exact absurd (hin.1.trans_lt hin.2) (lt_irrefl _)
    rw [Finset.sum_range_zero, hnone, Nat.cast_zero]
  | succ n ih =>
    obtain ⟨fuel, hb⟩ := hbs n (Nat.lt_succ_self n)
    have hmono : dayStart offset d ≤ dayStart offset (d + n) := dayStart_mono (by omega)
    rw [Finset.sum_range_succ, ih fun i hi => hbs i (Nat.lt_succ_of_lt hi),
      opened_eq he (hday.trans hmono) hb hk, ← Nat.cast_add,
      openings_add events k hmono (dayStart_mono (by omega)), Nat.cast_succ, ← add_assoc]

/-- An event that is not an available one is counted as opened on the day that it starts. -/
theorem openedOn_iff (hbegins : tp.BeginsInDay) {e : AddedEvent} (he : e.Ordered)
    (hday : 0 ≤ dayStart offset d) :
    OpenedOn offset tp e d ↔
      e.bucket ≠ .available ∧ e.OpenedIn (dayStart offset d) (dayStart offset (d + 1)) := by
  constructor
  · rintro ⟨fuel, b, hb, k, hk⟩
    obtain ⟨-, -, hopened⟩ := add_event_spec (of_ofDay offset d) hday he hb
    rw [hopened k, ofDay, opened_new, zero_add] at hk
    split at hk
    · rename_i hcounted
      obtain ⟨rfl, hne, hin⟩ := hcounted
      exact ⟨hne, hin⟩
    · cases hk
  · rintro ⟨hne, hin⟩
    obtain ⟨b, hb⟩ := Option.isSome_iff_exists.mp (add_event_ends (e := e) (of_ofDay offset d) hday
      hbegins (Nat.lt_succ_self 86400))
    obtain ⟨-, -, hopened⟩ := add_event_spec (of_ofDay offset d) hday he hb
    refine ⟨_, b, hb, e.bucket, ?_⟩
    rw [hopened, ofDay, opened_new, zero_add, if_pos ⟨rfl, hne, hin⟩]

theorem existsUnique_openedOn (hbegins : tp.BeginsInDay) {e : AddedEvent} (he : e.Ordered)
    (hne : e.bucket ≠ .available) (hday : 0 ≤ dayStart offset d) {n : ℕ}
    (hin : e.OpenedIn (dayStart offset d) (dayStart offset (d + n))) :
    ∃! i : ℕ, i < n ∧ OpenedOn offset tp e (d + i) := by
  obtain ⟨hle, hlt⟩ := hin
  have hlater : ∀ i : ℕ, 0 ≤ dayStart offset (d + i) := fun i =>
    hday.trans (dayStart_mono (by omega))
  refine ⟨(dayOf offset e.start_time - d).toNat, ⟨?_, ?_⟩, ?_⟩
  · simp only [dayOf, dayStart] at hle hlt ⊢
    omega
  · refine (openedOn_iff hbegins he (hlater _)).mpr ⟨hne, ?_⟩
    simp only [AddedEvent.OpenedIn, dayOf, dayStart] at hle hlt ⊢
    omega
  · rintro i ⟨-, hi⟩
    obtain ⟨-, hstart, hend⟩ := (openedOn_iff hbegins he (hlater i)).mp hi
    simp only [dayOf, dayStart] at hstart hend ⊢
    omega

end

/--
**Availability accounting is conservative.** When the events cover a day, each second is in one
of them, each bucket holds its seconds of the time period, and the buckets add up to the
`duration_intersect` of the day. Over consecutive days, an opening is counted once.
-/
theorem conservative (offset : ℤ) (tp : Timeperiod) (events : List AddedEvent) (start : ℤ)
    (stop : Option ℤ) (h : Contiguous start events stop) :
    (∀ d, 0 ≤ dayStart offset d → CoversDay offset d start stop →
      (∀ t, dayStart offset d ≤ t → t < dayStart offset (d + 1) → ∃! e, e ∈ events ∧ e.Holds t) ∧
      (∀ fuel b, (ofDay offset d).add_events offset fuel tp events = some b →
        (∀ k, b.time k = ((Finset.Ico (dayStart offset d) (dayStart offset (d + 1))).filter
          (InBucket offset tp events k)).card) ∧
        ∀ fuel' n, tp.duration_intersect offset fuel' (dayStart offset d)
          (dayStart offset (d + 1)) = some n → b.total = n)) ∧
    (∀ (d : ℤ) (n : ℕ), 0 ≤ dayStart offset d → ∀ bs : ℕ → AvailabilityBuilder,
      (∀ i < n, ∃ fuel, (ofDay offset (d + i)).add_events offset fuel tp events = some (bs i)) →
      ∀ k, k ≠ .available → ∑ i ∈ Finset.range n, (bs i).opened k =
        openings events k (dayStart offset d) (dayStart offset (d + n))) ∧
    (tp.BeginsInDay →
      (∀ d, 0 ≤ dayStart offset d → ∃ turns, ∀ fuel, turns ≤ fuel →
        ((ofDay offset d).add_events offset fuel tp events).isSome ∧
        (tp.duration_intersect offset fuel (dayStart offset d) (dayStart offset (d + 1))).isSome) ∧
      ∀ (d : ℤ) (n : ℕ), 0 ≤ dayStart offset d → ∀ e ∈ events, e.bucket ≠ .available →
        e.OpenedIn (dayStart offset d) (dayStart offset (d + n)) →
        ∃! i : ℕ, i < n ∧ OpenedOn offset tp e (d + i)) := by
  refine ⟨fun d hday hcovers => ⟨fun t hstart hend => ?_, fun fuel b hb => ⟨?_, ?_⟩⟩, ?_, ?_⟩
  · exact h.existsUnique (hcovers.1.trans hstart) fun s hs => lt_of_lt_of_le hend (hcovers.2 s hs)
  · exact h.time_eq hday hb
  · intro fuel' n hn
    rw [h.total_eq hcovers hday hb,
      Timeperiod.duration_intersect_counts (le_refl _) (le_refl _) hday hn]
  · intro d n hday bs hbs k hk
    exact sum_opened h.ordered hday bs hk n hbs
  · refine fun hbegins => ⟨fun d hday => ⟨86401, fun fuel hfuel => ⟨?_, ?_⟩⟩, ?_⟩
    · exact add_events_ends (of_ofDay offset d) hday hbegins h.ordered hfuel
    · refine Timeperiod.duration_intersect_ends hbegins hday ?_
      simp only [dayStart]
      omega
    · intro d n hday e he hne hin
      exact existsUnique_openedOn hbegins (h.ordered e he) hne hday hin

/-- Whole Thursdays. -/
def allThursday : Timeperiod :=
  ((⟨fun _ => []⟩ : Timeperiod).set_timerange "00:00-24:00".toList 4).2

theorem built_allThursday : Timeperiod.Built allThursday :=
  .set "00:00-24:00".toList 4 .empty (by decide) rfl

/-- A Thursday: fine, then a downtime, then a problem that is still there. -/
def thursdayEvents : List AddedEvent :=
  [⟨0, 600000, 640000, false⟩, ⟨2, 640000, 650000, true⟩, ⟨2, 650000, 0, false⟩]

theorem thursdayEvents_contiguous : Contiguous 600000 thursdayEvents none :=
  .cons ⟨0, 600000, 640000, false⟩ (by decide) (by decide)
    (.cons ⟨2, 640000, 650000, true⟩ (by decide) (by decide) (.still_open ⟨2, 650000, 0, false⟩ rfl))

theorem conservative_thursday : ∃ b, (ofDay 0 7).add_events 0 3 allThursday
    thursdayEvents = some b ∧ b.time .unavailable = 41200 ∧ b.total = 86400 := by
  refine ⟨((ofDay 0 7).add_events 0 3 allThursday thursdayEvents).get
    (by decide +kernel), (Option.some_get _).symm, by decide +kernel, ?_⟩
  have hday := (conservative 0 allThursday thursdayEvents 600000 none
    thursdayEvents_contiguous).1 7 (by decide) ⟨by decide, fun s hs => absurd hs (by simp)⟩
  exact (hday.2 3 _ (Option.some_get _).symm).2 3 86400 (by decide +kernel)

/-- An hour that does not fit in an `int`: the range is that of the day before, and goes on. -/
def overflowing : Timeperiod :=
  ((⟨fun _ => []⟩ : Timeperiod).set_timerange "4294967295:00-100:00".toList 4).2

theorem built_overflowing : Timeperiod.Built overflowing :=
  .set "4294967295:00-100:00".toList 4 .empty (by decide) rfl

theorem durationLoop_overflowing (fuel n : ℕ) (hn : n < 2 ^ 32) :
    Timeperiod.durationLoop 0 overflowing 604800 fuel 601200 n = none := by
  induction fuel generalizing n with
  | zero => rfl
  | succ fuel ih =>
    have hvalid : overflowing.get_next_valid 0 601200 = 601200 := rfl
    have hinvalid : overflowing.get_next_invalid 0 601200 = 601200 := by decide +kernel
    rw [Timeperiod.durationLoop, hvalid, hinvalid, if_neg (by decide), if_neg (by decide)]
    exact ih _ (Nat.mod_lt _ (by decide))

/--
An available event is never counted as opened. On the day of the epoch the time -1 is taken
for "never", and the hours of a range that overflow an `int` make the loop endless.
-/
theorem not_conservative :
    (¬ ∀ (offset : ℤ) (tp : Timeperiod) (events : List AddedEvent) (start : ℤ) (stop : Option ℤ),
      tp.Built → Contiguous start events stop → ∀ (d : ℤ) (n : ℕ), 0 ≤ dayStart offset d →
      ∀ e ∈ events, e.OpenedIn (dayStart offset d) (dayStart offset (d + n)) →
      ∃! i : ℕ, i < n ∧ OpenedOn offset tp e (d + i)) ∧
    (¬ ∀ (offset : ℤ) (tp : Timeperiod) (events : List AddedEvent) (start : ℤ) (stop : Option ℤ),
      tp.Built → Contiguous start events stop → ∀ d, CoversDay offset d start stop →
      ∀ fuel b n, (ofDay offset d).add_events offset fuel tp events = some b →
      tp.duration_intersect offset fuel (dayStart offset d) (dayStart offset (d + 1)) = some n →
      b.total = n) ∧
    (¬ ∀ (offset : ℤ) (tp : Timeperiod), tp.Built → ∀ d, 0 ≤ dayStart offset d → ∃ fuel,
      (tp.duration_intersect offset fuel (dayStart offset d) (dayStart offset (d + 1))).isSome) := by
  refine ⟨fun h => ?_, fun h => ?_, fun h => ?_⟩
  · obtain ⟨i, ⟨-, fuel, b, hb, k, hk⟩, -⟩ := h 0 allThursday [⟨0, 604800, 0, false⟩] 604800 none
      built_allThursday (.still_open ⟨0, 604800, 0, false⟩ rfl) 7 1 (by decide) _
      (List.mem_singleton.mpr rfl) (by decide)
    have hday : 0 ≤ dayStart 0 (7 + i) := by
      simp only [dayStart]
      omega
    obtain ⟨-, -, hopened⟩ := add_event_spec (of_ofDay 0 (7 + i)) hday (Or.inl rfl) hb
    rw [hopened k, ofDay, opened_new, if_neg] at hk
    · cases hk
    · rintro ⟨rfl, hne, -⟩
      exact hne rfl
  · have hcontiguous : Contiguous (-3600) [⟨0, -3600, -1, false⟩, ⟨0, -1, 82800, false⟩]
        (some 82800) :=
      .cons ⟨0, -3600, -1, false⟩ (by decide) (by decide)
        (.cons ⟨0, -1, 82800, false⟩ (by decide) (by decide) (.nil 82800))
    have htotal := h 3600 allThursday _ _ _ built_allThursday hcontiguous 0
      ⟨by decide, by simp [dayStart]⟩ 2
      (((ofDay 3600 0).add_events 3600 2 allThursday
        [⟨0, -3600, -1, false⟩, ⟨0, -1, 82800, false⟩]).get (by decide +kernel)) 86400
      (Option.some_get _).symm (by decide +kernel)
    exact absurd htotal (by decide +kernel)
  · obtain ⟨fuel, hfuel⟩ := h 0 overflowing built_overflowing 6 (by decide)
    have hvalid : overflowing.get_next_valid 0 518400 = 601200 := by decide +kernel
    have hinvalid : overflowing.get_next_invalid 0 601200 = 601200 := by decide +kernel
    have hstart : dayStart 0 6 = 518400 := rfl
    have hend : dayStart 0 (6 + 1) = 604800 := rfl
    rw [hstart, hend, Timeperiod.duration_intersect, if_neg (by decide)] at hfuel
    cases fuel with
    | zero => cases hfuel
    | succ fuel =>
      rw [Timeperiod.durationLoop, hvalid, hinvalid, if_neg (by decide), if_neg (by decide),
        durationLoop_overflowing fuel _ (Nat.mod_lt _ (by decide))] at hfuel
      cases hfuel

end CentreonBroker.Bam
