import CentreonBroker.Bam.AvailabilityBuilder

/-!
# What a day is made of

Events that follow each other without a gap cut a day in parts. Each second of the day that is
in the time period goes to the bucket of the event it is in, so that the buckets add up to what
the time period has of the day. An event is counted as opened on the day that it starts.
-/

namespace CentreonBroker.Bam

open Time Spans

/--
The events follow each other from `start` to `stop`, with no gap. There is no `stop` when the
last one is still open.
-/
inductive Contiguous : ℤ → List AddedEvent → Option ℤ → Prop
  | nil (start : ℤ) : Contiguous start [] (some start)
  | still_open (e : AddedEvent) (hopen : e.end_time = 0) : Contiguous e.start_time [e] none
  | cons (e : AddedEvent) {rest : List AddedEvent} {stop : Option ℤ} (hclosed : e.end_time ≠ 0)
      (hordered : e.start_time ≤ e.end_time) (tail : Contiguous e.end_time rest stop) :
      Contiguous e.start_time (e :: rest) stop

/-- The seconds of a day that are in the time period and in the event. -/
noncomputable def AddedEvent.seconds (offset : ℤ) (tp : Timeperiod) (d : ℤ) (e : AddedEvent) : ℕ :=
  countIn (fun t => tp.Covered offset t ∧ e.Holds t) (dayStart offset d) (dayStart offset (d + 1))

namespace Contiguous

variable {start : ℤ} {events : List AddedEvent} {stop : Option ℤ}

theorem ordered (h : Contiguous start events stop) : ∀ e ∈ events, e.Ordered := by
  induction h with
  | nil => exact List.forall_mem_nil _
  | still_open e hopen => exact List.forall_mem_singleton.mpr (Or.inl hopen)
  | cons e _ hordered _ ih => exact List.forall_mem_cons.mpr ⟨Or.inr hordered, ih⟩

theorem le_of_holds (h : Contiguous start events stop) :
    ∀ e ∈ events, ∀ t, e.Holds t → start ≤ t := by
  induction h with
  | nil => exact List.forall_mem_nil _
  | still_open e _ => exact List.forall_mem_singleton.mpr fun t ht => ht.1
  | cons e _ hordered _ ih =>
    exact List.forall_mem_cons.mpr
      ⟨fun t ht => ht.1, fun e' he' t ht => hordered.trans (ih e' he' t ht)⟩

/-- **Each time is in exactly one of the events.** -/
theorem existsUnique (h : Contiguous start events stop) {t : ℤ} (hstart : start ≤ t)
    (hstop : ∀ s ∈ stop, t < s) : ∃! e, e ∈ events ∧ e.Holds t := by
  induction h with
  | nil start =>
    have hlt := hstop start rfl
    omega
  | still_open e hopen =>
    refine ⟨e, ⟨List.mem_singleton.mpr rfl, hstart, Or.inl hopen⟩, ?_⟩
    rintro e' ⟨he', -⟩
    exact List.mem_singleton.mp he'
  | cons e hclosed hordered tail ih =>
    by_cases hin : t < e.end_time
    · refine ⟨e, ⟨List.mem_cons_self, hstart, Or.inr hin⟩, ?_⟩
      rintro e' ⟨he', hholds⟩
      rcases List.mem_cons.mp he' with heq | he'
      · exact heq
      · have hle := tail.le_of_holds e' he' t hholds
        omega
    · obtain ⟨e', ⟨he', hholds⟩, hunique⟩ := ih (not_lt.mp hin) hstop
      refine ⟨e', ⟨List.mem_cons_of_mem e he', hholds⟩, ?_⟩
      rintro e'' ⟨he'', hholds''⟩
      rcases List.mem_cons.mp he'' with rfl | he''
      · exact absurd (hholds''.2.resolve_left hclosed) hin
      · exact hunique e'' ⟨he'', hholds''⟩

/-- No second is in two of the events, so that those of some of them add up. -/
theorem sum_seconds (h : Contiguous start events stop) (offset : ℤ) (tp : Timeperiod) (d : ℤ)
    (p : AddedEvent → Prop) [DecidablePred p] :
    (events.map fun e => if p e then e.seconds offset tp d else 0).sum =
      countIn (fun t => tp.Covered offset t ∧ ∃ e ∈ events, p e ∧ e.Holds t)
        (dayStart offset d) (dayStart offset (d + 1)) := by
  have hhead : ∀ e : AddedEvent, (if p e then e.seconds offset tp d else 0) =
      countIn (fun t => tp.Covered offset t ∧ p e ∧ e.Holds t)
        (dayStart offset d) (dayStart offset (d + 1)) := by
    intro e
    by_cases hp : p e
    · rw [if_pos hp, AddedEvent.seconds]
      exact countIn_congr fun u _ _ => by simp only [hp, true_and]
    · rw [if_neg hp, countIn_eq_zero fun u _ _ hu => hp hu.2.1]
  induction h with
  | nil =>
    rw [List.map_nil, List.sum_nil, countIn_eq_zero]
    rintro u - - ⟨-, e, he, -⟩
    exact absurd he List.not_mem_nil
  | still_open e _ =>
    rw [List.map_singleton, List.sum_singleton, hhead]
    exact countIn_congr fun u _ _ => by simp only [List.mem_singleton, exists_eq_left]
  | cons e hclosed _ tail ih =>
    rw [List.map_cons, List.sum_cons, hhead, ih]
    refine (countIn_or (fun u _ _ => ?_) fun u _ _ hu hu' => ?_).symm
    · simp only [List.mem_cons, exists_eq_or_imp, and_or_left]
    · obtain ⟨-, -, -, hlt⟩ := hu
      obtain ⟨-, e', he', -, hholds⟩ := hu'
      have hle := tail.le_of_holds e' he' u hholds
      have hlt := hlt.resolve_left hclosed
      omega

end Contiguous

/-! ## One event -/

namespace AvailabilityBuilder

/-- The builder is one of a day. -/
structure Of (offset d : ℤ) (b : AvailabilityBuilder) : Prop where
  starting_point : b.starting_point = dayStart offset d
  ending_point : b.ending_point = dayStart offset (d + 1)

theorem of_ofDay (offset d : ℤ) : Of offset d (ofDay offset d) := ⟨rfl, rfl⟩

variable {offset d : ℤ} {tp : Timeperiod} {b b' : AvailabilityBuilder} {fuel : ℕ}

/-- The seconds of an event are those of its part that is within the day. -/
theorem seconds_eq (offset : ℤ) (tp : Timeperiod) (d : ℤ) (e : AddedEvent) :
    e.seconds offset tp d = countIn (tp.Covered offset) (max (dayStart offset d) e.start_time)
      (min (dayStart offset (d + 1)) (if e.end_time = 0 then dayStart offset (d + 1) else e.end_time)) := by
  rw [← countIn_clip, AddedEvent.seconds]
  refine countIn_congr fun u _ hu => and_congr_right fun _ => and_congr_right fun _ => ?_
  by_cases hopen : e.end_time = 0
  · simp only [hopen, if_true, true_or, hu]
  · simp only [hopen, if_false, false_or]

/-- An event with no second of the day before its end adds nothing. -/
theorem seconds_of_past {e : AddedEvent} (hclosed : e.end_time ≠ 0)
    (hend : e.end_time < dayStart offset d) : e.seconds offset tp d = 0 := by
  refine countIn_eq_zero fun u hu _ hholds => ?_
  have hlt := hholds.2.2.resolve_left hclosed
  omega

theorem seconds_le (e : AddedEvent) : e.seconds offset tp d ≤ 86400 := by
  refine countIn_le.trans ?_
  simp only [dayStart]
  omega

/-- **What `add_event` does.** It adds the seconds of the event to its bucket. -/
theorem add_event_spec {e : AddedEvent} (hb : b.Of offset d) (hday : 0 ≤ dayStart offset d)
    (he : e.Ordered) (h : b.add_event offset fuel tp e = some b') :
    b'.Of offset d ∧
      (∀ k, 0 ≤ b.time k → b.time k + (if e.bucket = k then e.seconds offset tp d else 0) < 2 ^ 31 →
        b'.time k = b.time k + (if e.bucket = k then e.seconds offset tp d else 0)) ∧
      ∀ k, b'.opened k = b.opened k + if e.bucket = k ∧ k ≠ .available ∧
        e.OpenedIn (dayStart offset d) (dayStart offset (d + 1)) then 1 else 0 := by
  obtain ⟨hstart, hend⟩ := hb
  have hlt := Timeperiod.dayStart_lt offset d
  rw [add_event, hstart, hend] at h
  by_cases hpast : (if e.end_time = 0 then dayStart offset (d + 1) else e.end_time) <
      dayStart offset d
  · -- the event is over before the day, so that it did not start in it either
    rw [if_pos hpast] at h
    obtain rfl := Option.some.inj h
    have hclosed : e.end_time ≠ 0 := by
      intro hopen
      rw [if_pos hopen] at hpast
      omega
    rw [if_neg hclosed] at hpast
    refine ⟨⟨hstart, hend⟩, fun k _ _ => ?_, fun k => ?_⟩
    · rw [seconds_of_past hclosed hpast]
      simp
    · rw [if_neg, add_zero]
      rintro ⟨-, -, hopened, -⟩
      have hordered := he.resolve_left hclosed
      omega
  · rw [if_neg hpast] at h
    obtain ⟨n, hn, rfl⟩ := Option.map_eq_some_iff.mp h
    have hclip : (if e.start_time < dayStart offset d then dayStart offset d else e.start_time) =
        max (dayStart offset d) e.start_time := by
      split <;> omega
    have hclip' : ∀ stop, (if dayStart offset (d + 1) < stop then dayStart offset (d + 1) else stop) =
        min (dayStart offset (d + 1)) stop := by
      intro stop
      split <;> omega
    rw [hclip, hclip'] at hn
    have hcount := Timeperiod.duration_intersect_counts (le_max_left _ _) (min_le_left _ _)
      (hday.trans (le_max_left _ _)) hn
    rw [← seconds_eq] at hcount
    have hle : e.seconds offset tp d ≤ 86400 := seconds_le e
    rw [if_neg (by omega)]
    obtain ⟨hstart', hend', htime, hopened⟩ := update_spec e
      (decide (dayStart offset d ≤ e.start_time ∧ e.start_time < dayStart offset (d + 1))) n b
    refine ⟨⟨hstart'.trans hstart, hend'.trans hend⟩, fun k hnonneg hsmall => ?_, fun k => ?_⟩
    · rw [htime, hcount]
      by_cases hk : e.bucket = k
      · rw [if_pos hk] at hsmall ⊢
        rw [if_pos hk]
        exact addUint32_eq hnonneg hsmall
      · rw [if_neg hk, if_neg hk, Nat.cast_zero, add_zero]
    · rw [hopened]
      refine congrArg (b.opened k + ·) (if_congr ?_ rfl rfl)
      exact and_congr_right fun _ => and_congr_right fun _ => decide_eq_true_iff

theorem add_event_ends {e : AddedEvent} (hb : b.Of offset d) (hday : 0 ≤ dayStart offset d)
    (hbegins : tp.BeginsInDay) (hfuel : 86400 < fuel) : (b.add_event offset fuel tp e).isSome := by
  obtain ⟨hstart, hend⟩ := hb
  rw [add_event, hstart, hend]
  by_cases hpast : (if e.end_time = 0 then dayStart offset (d + 1) else e.end_time) <
      dayStart offset d
  · rw [if_pos hpast]
    rfl
  · rw [if_neg hpast]
    show (Option.map _ _).isSome
    rw [Option.isSome_map]
    refine Timeperiod.duration_intersect_ends hbegins ?_ ?_
    · split <;> omega
    · have hday' : dayStart offset (d + 1) = dayStart offset d + 86400 := by
        simp only [dayStart]
        omega
      split <;> split <;> omega

/-! ## All the events of a day -/

/-- What the events of a bucket have of a day. -/
noncomputable def secondsOf (offset : ℤ) (tp : Timeperiod) (d : ℤ) (events : List AddedEvent)
    (k : Bucket) : ℕ :=
  (events.map fun e => if e.bucket = k then e.seconds offset tp d else 0).sum

theorem add_events_spec {events : List AddedEvent} (hb : b.Of offset d)
    (hday : 0 ≤ dayStart offset d) (he : ∀ e ∈ events, e.Ordered)
    (h : b.add_events offset fuel tp events = some b') :
    (∀ k, 0 ≤ b.time k → b.time k + secondsOf offset tp d events k < 2 ^ 31 →
        b'.time k = b.time k + secondsOf offset tp d events k) ∧
      ∀ k, k ≠ .available → b'.opened k = b.opened k + (events.filter fun e => e.bucket = k ∧
        e.OpenedIn (dayStart offset d) (dayStart offset (d + 1))).length := by
  induction events generalizing b with
  | nil =>
    obtain rfl := Option.some.inj h
    refine ⟨fun k _ _ => ?_, fun k _ => ?_⟩
    · rw [secondsOf, List.map_nil, List.sum_nil, Nat.cast_zero, add_zero]
    · rw [List.filter_nil, List.length_nil, Nat.cast_zero, add_zero]
  | cons e rest ih =>
    rw [add_events, List.foldlM_cons] at h
    obtain ⟨b₁, h₁, hrest⟩ := Option.bind_eq_some_iff.mp h
    obtain ⟨hb₁, htime₁, hopened₁⟩ := add_event_spec hb hday (he e List.mem_cons_self) h₁
    obtain ⟨htime, hopened⟩ := ih hb₁ (fun e' he' => he e' (List.mem_cons_of_mem e he')) hrest
    refine ⟨fun k hnonneg hsmall => ?_, fun k hk => ?_⟩
    · rw [secondsOf, List.map_cons, List.sum_cons, Nat.cast_add, ← secondsOf] at hsmall ⊢
      have hfirst := htime₁ k hnonneg (by omega)
      rw [htime k (by omega) (by omega), hfirst, add_assoc]
    · rw [hopened k hk, hopened₁ k, List.filter_cons]
      by_cases hcounted : e.bucket = k ∧
          e.OpenedIn (dayStart offset d) (dayStart offset (d + 1))
      · rw [if_pos ⟨hcounted.1, hk, hcounted.2⟩, if_pos (decide_eq_true hcounted), List.length_cons,
          Nat.cast_add, Nat.cast_one]
        omega
      · rw [if_neg fun h => hcounted ⟨h.1, h.2.2⟩, if_neg (by simpa using hcounted), add_zero]

theorem add_events_ends {events : List AddedEvent} (hb : b.Of offset d)
    (hday : 0 ≤ dayStart offset d) (hbegins : tp.BeginsInDay) (he : ∀ e ∈ events, e.Ordered)
    (hfuel : 86400 < fuel) : (b.add_events offset fuel tp events).isSome := by
  induction events generalizing b with
  | nil => rfl
  | cons e rest ih =>
    obtain ⟨b₁, h₁⟩ := Option.isSome_iff_exists.mp (add_event_ends (e := e) hb hday hbegins hfuel)
    obtain ⟨hb₁, -, -⟩ := add_event_spec hb hday (he e List.mem_cons_self) h₁
    have hrest := ih hb₁ fun e' he' => he e' (List.mem_cons_of_mem e he')
    rw [add_events, List.foldlM_cons, h₁]
    exact hrest

end AvailabilityBuilder

end CentreonBroker.Bam
