import CentreonBroker.Lib.AckQueue

/-!
# Acknowledgements of a BBDO stream

A stream counts the events it reads, and tells its peer how many once there are
`_ack_limit` of them. What its peer tells is counted as well, and handed out by the
next `write` or `flush`. Here a link carries whole messages: how they are cut into
bytes is the matter of the other modules.
-/

namespace CentreonBroker.Bbdo

/-- A message of a link, once the negotiation is over. -/
inductive Message (α : Type) where
  | event (e : α)
  | ack (acknowledged_events : Nat)
  /-- `version_response`, of the version that is expected. -/
  | versionResponse

/-- The members of `stream` that count events. -/
structure Counters where
  coarse : Bool
  acknowledged_events : Nat
  ack_limit : Nat
  events_received_since_last_ack : Nat
  deriving DecidableEq, Repr

/-- `acknowledge_events`. -/
def acknowledgeEvents (c : Counters) (events : Nat) : Counters :=
  { c with acknowledged_events := c.acknowledged_events + events }

variable {α : Type}

/-- `send_event_acknowledgement`, and what it writes. -/
def sendEventAcknowledgement (c : Counters) : Counters × List (Message α) :=
  if c.coarse then (c, [])
  else
    ({ c with events_received_since_last_ack := 0 }, [.ack c.events_received_since_last_ack])

theorem sendEventAcknowledgement_eq {c : Counters} (hc : c.coarse = false) :
    sendEventAcknowledgement (α := α) c =
      ({ c with events_received_since_last_ack := 0 },
        [.ack c.events_received_since_last_ack]) :=
  if_neg (by rw [hc]; exact Bool.false_ne_true)

/-- `write`: the number it returns, and what goes to the link. -/
def writeEvent (serializes : α → Bool) (c : Counters) (d : α) :
    Nat × Counters × List (Message α) :=
  let sent := if serializes d then [.event d] else []
  let retval := c.acknowledged_events
  (retval, { c with acknowledged_events := c.acknowledged_events - retval }, sent)

/-- `flush`: the number it returns. -/
def flush (c : Counters) : Nat × Counters :=
  (c.acknowledged_events, { c with acknowledged_events := 0 })

/--
The loop of `read` over the messages that arrived, which takes the control ones:
`none` when it times out, else what `_read_any` gives, which is null for an event of
a type that is not registered. Last come the messages that were not read.
-/
def readControl (registered : α → Bool) :
    Counters → List (Message α) → Option (Option α) × Counters × List (Message α)
  | c, [] => (none, c, [])
  | c, .versionResponse :: l => readControl registered c l
  | c, .ack n :: l => readControl registered (acknowledgeEvents c n) l
  | c, .event e :: l => (some (if registered e then some e else none), c, l)

/-- The end of `read`: the event is counted, and the acknowledgement sent if it must. -/
def countEvent (c : Counters) (d : Option (Option α)) : Counters × List (Message α) :=
  let c :=
    match d with
    | some (some _) =>
      { c with events_received_since_last_ack := c.events_received_since_last_ack + 1 }
    | _ => c
  if c.ack_limit ≤ c.events_received_since_last_ack then sendEventAcknowledgement c else (c, [])

/-- `read`, on the messages that arrived: the result, what is left of them, what is sent. -/
def readEvent (registered : α → Bool) (c : Counters) (arrived : List (Message α)) :
    Option (Option α) × Counters × List (Message α) × List (Message α) :=
  let (d, c, rest) := readControl registered c arrived
  let (c, sent) := countEvent c d
  (d, c, rest, sent)

/-! ## What is in flight -/

/-- The events that the acknowledgements of a link are for. -/
def acksIn : List (Message α) → Nat
  | [] => 0
  | .ack n :: l => n + acksIn l
  | _ :: l => acksIn l

def eventsIn : List (Message α) → Nat
  | [] => 0
  | .event _ :: l => eventsIn l + 1
  | _ :: l => eventsIn l

@[simp] theorem acksIn_append (l l' : List (Message α)) :
    acksIn (l ++ l') = acksIn l + acksIn l' := by
  induction l with
  | nil => exact (Nat.zero_add _).symm
  | cons m l ih =>
    cases m with
    | ack n => rw [List.cons_append, acksIn, acksIn, ih, Nat.add_assoc]
    | event e => exact ih
    | versionResponse => exact ih

@[simp] theorem eventsIn_append (l l' : List (Message α)) :
    eventsIn (l ++ l') = eventsIn l + eventsIn l' := by
  induction l with
  | nil => exact (Nat.zero_add _).symm
  | cons m l ih =>
    cases m with
    | ack n => exact ih
    | event e => rw [List.cons_append, eventsIn, eventsIn, ih]; omega
    | versionResponse => exact ih

/-- **The control messages are not lost**: what they acknowledge is counted. -/
theorem readControl_spec (registered : α → Bool) (l : List (Message α)) : ∀ c : Counters,
    let r := readControl registered c l
    r.2.1.acknowledged_events + acksIn r.2.2 = c.acknowledged_events + acksIn l ∧
      r.2.1.events_received_since_last_ack = c.events_received_since_last_ack ∧
      r.2.1.coarse = c.coarse ∧ r.2.1.ack_limit = c.ack_limit ∧
      (match r.1 with
        | none => eventsIn l = 0 ∧ r.2.2 = []
        | some d => eventsIn l = eventsIn r.2.2 + 1 ∧
            ((∀ e, registered e = true) → d.isSome = true)) := by
  induction l with
  | nil => intro c; exact ⟨rfl, rfl, rfl, rfl, rfl, rfl⟩
  | cons m l ih =>
    intro c
    cases m with
    | ack n =>
        obtain ⟨h1, h2, h3, h4, h5⟩ := ih (acknowledgeEvents c n)
        refine ⟨h1.trans ?_, h2, h3, h4, h5⟩
        exact Nat.add_assoc _ _ _
    | event e =>
        refine ⟨rfl, rfl, rfl, rfl, rfl, fun hreg => ?_⟩
        rw [hreg e]
        rfl
    | versionResponse => exact ih c

/-- **What is counted is what was received**, or it is in the acknowledgement that is sent. -/
theorem countEvent_spec {c : Counters} (hc : c.coarse = false) (d : Option (Option α)) :
    let r := countEvent c d
    r.1.events_received_since_last_ack + acksIn r.2 =
        c.events_received_since_last_ack + (if d.join.isSome then 1 else 0) ∧
      r.1.acknowledged_events = c.acknowledged_events ∧ r.1.coarse = false ∧
      r.1.ack_limit = c.ack_limit ∧ eventsIn r.2 = 0 := by
  unfold countEvent
  rcases d with _ | _ | e
  all_goals
    dsimp only
    split
    · rw [sendEventAcknowledgement_eq]
      · refine ⟨?_, rfl, hc, rfl, rfl⟩
        simp [acksIn]
      · exact hc
    · refine ⟨?_, rfl, hc, rfl, rfl⟩
      simp [acksIn]

/-- What a call to `read` does to the counters and to both links. -/
structure ReadSpec (registered : α → Bool) (c : Counters) (l : List (Message α))
    (d : Option (Option α)) (c' : Counters) (rest sent : List (Message α)) : Prop where
  coarse : c'.coarse = false
  acknowledged : c'.acknowledged_events + acksIn rest = c.acknowledged_events + acksIn l
  counted : c'.events_received_since_last_ack + acksIn sent =
    c.events_received_since_last_ack + (if d.join.isSome then 1 else 0)
  taken : eventsIn l = eventsIn rest + (if d.isSome then 1 else 0)
  sent_events : eventsIn sent = 0
  known : (∀ e, registered e = true) → d.join.isSome = d.isSome

theorem readEvent_spec (registered : α → Bool) {c : Counters} (hc : c.coarse = false)
    (l : List (Message α)) : ∃ d c' rest sent,
    readEvent registered c l = (d, c', rest, sent) ∧
      ReadSpec registered c l d c' rest sent := by
  obtain ⟨h1, h2, h3, h4, h5⟩ := readControl_spec registered l c
  obtain ⟨k1, k2, k3, k4, k5⟩ := countEvent_spec (h3.trans hc) (readControl registered c l).1
  refine ⟨(readControl registered c l).1,
    (countEvent (readControl registered c l).2.1 (readControl registered c l).1).1,
    (readControl registered c l).2.2,
    (countEvent (readControl registered c l).2.1 (readControl registered c l).1).2, rfl, k3,
    ?_, ?_, ?_, k5, ?_⟩
  · rw [k2]; exact h1
  · rw [h2] at k1; exact k1
  · cases hd : (readControl registered c l).1 with
    | none =>
        rw [hd] at h5
        rw [h5.1, h5.2]
        rfl
    | some d =>
        rw [hd] at h5
        exact h5.1
  · intro hreg
    cases hd : (readControl registered c l).1 with
    | none => rfl
    | some d =>
        rw [hd] at h5
        exact h5.2 hreg

end CentreonBroker.Bbdo
