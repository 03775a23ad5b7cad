import CentreonBroker.Time.Duration

/-!
# The availability builder

What the events of a BA make of a day: how long the BA was in each state within a time period,
and how many events of each were opened that day. A duration is added to an `int`, and it is
the time period that computes it, so that a builder has no result where that does not end.
-/

namespace CentreonBroker.Bam

open Time Spans

/-- What `add_event` is given of an event. Its end is 0 when it is still open. -/
structure AddedEvent where
  status : ℤ
  start_time : ℤ
  end_time : ℤ
  was_in_downtime : Bool
  deriving DecidableEq

structure AvailabilityBuilder where
  ending_point : ℤ
  starting_point : ℤ
  available : ℤ
  unavailable : ℤ
  degraded : ℤ
  unknown : ℤ
  downtime : ℤ
  alert_unavailable_opened : ℤ
  alert_degraded_opened : ℤ
  alert_unknown_opened : ℤ
  nb_downtime : ℤ
  timeperiods_is_default : Bool

/-- An unsigned integer that is added to an `int`. -/
def addUint32 (x : ℤ) (n : ℕ) : ℤ := Int.bmod (x + n) (2 ^ 32)

namespace AvailabilityBuilder

/-- The constructor. -/
def new (ending_point starting_point : ℤ) : AvailabilityBuilder :=
  ⟨ending_point, starting_point, 0, 0, 0, 0, 0, 0, 0, 0, 0, false⟩

/-- What `add_event` does with the duration of an event. -/
def update (status : ℤ) (was_in_downtime opened_today : Bool) (sla_duration : ℕ)
    (b : AvailabilityBuilder) : AvailabilityBuilder :=
  let opened (n : ℤ) : ℤ := if opened_today then n + 1 else n
  if was_in_downtime then
    { b with
      downtime := addUint32 b.downtime sla_duration
      nb_downtime := opened b.nb_downtime }
  else if status = 0 then { b with available := addUint32 b.available sla_duration }
  else if status = 1 then
    { b with
      degraded := addUint32 b.degraded sla_duration
      alert_degraded_opened := opened b.alert_degraded_opened }
  else if status = 2 then
    { b with
      unavailable := addUint32 b.unavailable sla_duration
      alert_unavailable_opened := opened b.alert_unavailable_opened }
  else
    { b with
      unknown := addUint32 b.unknown sla_duration
      alert_unknown_opened := opened b.alert_unknown_opened }

def add_event (offset : ℤ) (fuel : ℕ) (tp : Timeperiod) (e : AddedEvent)
    (b : AvailabilityBuilder) : Option AvailabilityBuilder :=
  let end_time := if e.end_time = 0 then b.ending_point else e.end_time
  if end_time < b.starting_point then some b
  else
    let opened_today := decide (b.starting_point ≤ e.start_time ∧ e.start_time < b.ending_point)
    -- the part of the event that is within the day
    let start_time := if e.start_time < b.starting_point then b.starting_point else e.start_time
    let end_time := if b.ending_point < end_time then b.ending_point else end_time
    (tp.duration_intersect offset fuel start_time end_time).map fun sla_duration =>
      if sla_duration = 2 ^ 32 - 1 then b
      else b.update e.status e.was_in_downtime opened_today sla_duration

/-- All the events, one after the other. -/
def add_events (offset : ℤ) (fuel : ℕ) (tp : Timeperiod) (events : List AddedEvent)
    (b : AvailabilityBuilder) : Option AvailabilityBuilder :=
  events.foldlM (fun b e => b.add_event offset fuel tp e) b

/-- The builder of a day. -/
def ofDay (offset d : ℤ) : AvailabilityBuilder := new (dayStart offset (d + 1)) (dayStart offset d)

end AvailabilityBuilder

/-! ## What an event counts as -/

inductive Bucket where
  | available | degraded | unavailable | unknown | downtime
  deriving DecidableEq

/-- A downtime comes before the status. -/
def AddedEvent.bucket (e : AddedEvent) : Bucket :=
  if e.was_in_downtime then .downtime
  else if e.status = 0 then .available
  else if e.status = 1 then .degraded
  else if e.status = 2 then .unavailable
  else .unknown

/-- The time is one of the event. -/
def AddedEvent.Holds (e : AddedEvent) (t : ℤ) : Prop :=
  e.start_time ≤ t ∧ (e.end_time = 0 ∨ t < e.end_time)

instance (e : AddedEvent) : DecidablePred e.Holds := fun _ => inferInstanceAs (Decidable (_ ∧ _))

/-- An event does not end before it starts. -/
def AddedEvent.Ordered (e : AddedEvent) : Prop := e.end_time = 0 ∨ e.start_time ≤ e.end_time

/-- The event starts from `s` on and before `t`. -/
def AddedEvent.OpenedIn (s t : ℤ) (e : AddedEvent) : Prop := s ≤ e.start_time ∧ e.start_time < t

instance (s t : ℤ) : DecidablePred (AddedEvent.OpenedIn s t) := fun _ =>
  inferInstanceAs (Decidable (_ ∧ _))

namespace AvailabilityBuilder

/-- How long the BA was in a state. -/
def time (b : AvailabilityBuilder) : Bucket → ℤ
  | .available => b.available
  | .degraded => b.degraded
  | .unavailable => b.unavailable
  | .unknown => b.unknown
  | .downtime => b.downtime

/-- How many events were opened. There is no such count for the available ones. -/
def opened (b : AvailabilityBuilder) : Bucket → ℤ
  | .available => 0
  | .degraded => b.alert_degraded_opened
  | .unavailable => b.alert_unavailable_opened
  | .unknown => b.alert_unknown_opened
  | .downtime => b.nb_downtime

def total (b : AvailabilityBuilder) : ℤ :=
  b.available + b.degraded + b.unavailable + b.unknown + b.downtime

@[simp] theorem time_new (e s : ℤ) (k : Bucket) : (new e s).time k = 0 := by cases k <;> rfl

@[simp] theorem opened_new (e s : ℤ) (k : Bucket) : (new e s).opened k = 0 := by cases k <;> rfl

theorem addUint32_eq {x : ℤ} {n : ℕ} (hx : 0 ≤ x) (hsmall : x + n < 2 ^ 31) :
    addUint32 x n = x + n :=
  Int.bmod_eq_of_le (by omega) (by omega)

/-- **An event is added to its own bucket**, and counted there if there is such a count. -/
theorem update_spec (e : AddedEvent) (opened_today : Bool) (n : ℕ) (b : AvailabilityBuilder) :
    let b' := b.update e.status e.was_in_downtime opened_today n
    b'.starting_point = b.starting_point ∧ b'.ending_point = b.ending_point ∧
      (∀ k, b'.time k = if e.bucket = k then addUint32 (b.time k) n else b.time k) ∧
      ∀ k, b'.opened k = b.opened k +
        if e.bucket = k ∧ k ≠ .available ∧ opened_today = true then 1 else 0 := by
  obtain ⟨status, start_time, end_time, was_in_downtime⟩ := e
  cases was_in_downtime with
  | true =>
    refine ⟨rfl, rfl, fun k => ?_, fun k => ?_⟩
    · cases k <;> rfl
    · cases k <;> cases opened_today <;> simp [update, opened, AddedEvent.bucket]
  | false =>
    simp only [update, AddedEvent.bucket, Bool.false_eq_true, if_false]
    by_cases h0 : status = 0
    · simp only [h0, if_true]
      refine ⟨trivial, trivial, fun k => ?_, fun k => ?_⟩ <;> cases k <;> simp [time, opened]
    · by_cases h1 : status = 1
      · simp only [h1, one_ne_zero, if_true, if_false]
        refine ⟨trivial, trivial, fun k => ?_, fun k => ?_⟩ <;> cases k <;> cases opened_today <;>
          simp [time, opened]
      · by_cases h2 : status = 2
        · simp only [h2, OfNat.ofNat_ne_zero, OfNat.ofNat_ne_one, if_true, if_false]
          refine ⟨trivial, trivial, fun k => ?_, fun k => ?_⟩ <;> cases k <;>
            cases opened_today <;> simp [time, opened]
        · simp only [h0, h1, h2, if_false]
          refine ⟨trivial, trivial, fun k => ?_, fun k => ?_⟩ <;> cases k <;>
            cases opened_today <;> simp [time, opened]

end AvailabilityBuilder

end CentreonBroker.Bam
