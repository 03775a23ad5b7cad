import CentreonBroker.Bbdo.Acknowledge
import CentreonBroker.Multiplexing.Delivery

/-!
# One connection, from a muxer to a peer that acknowledges

A failover reads its muxer and writes to a BBDO stream. The peer's stream reads,
counts, and sends acknowledgements back; the failover's stream counts them, and
each `write` or `flush` hands out what it counted, for the failover to pass on to
the muxer. Both links are FIFO.

An event that was received is in one of five places until the muxer gives it up:
the peer's counter, an acknowledgement in flight, the stream's counter, the
variable `we` of the failover, the muxer. `Balanced` is this sum. What makes it
safe is that the peer cannot count an event that the muxer did not deliver, so
that no acknowledgement ever asks the muxer for more than it can give up.
-/

namespace CentreonBroker.Processing

open Bbdo Multiplexing

/-- Where the thread of a failover is, between two actions that others can see. -/
inductive Failover (α : Type) where
  /-- In its loop, with nothing in hand. -/
  | loop
  /-- With the event it read from the muxer. -/
  | writing (d : α)
  /-- With what `write` or `flush` returned. -/
  | acking (we : Nat)

structure Connection (F α D : Type) where
  session : Session F α D
  failover : Failover α
  /-- The BBDO output, that of the failover. -/
  output : Counters
  /-- The BBDO input, that of the peer. -/
  input : Counters
  forward : List (Message α)
  back : List (Message α)
  /-- How many events the peer read off the link. -/
  received : Nat

inductive Action (α : Type) where
  /-- An event comes to the muxer. -/
  | publish (event : Option α)
  | muxerRead (timed_out : Bool)
  | write
  | flush
  | ackEvents
  /-- `read` of the failover's stream, when so many messages arrived. -/
  | streamRead (arrived : Nat)
  /-- `read` of the peer's. -/
  | peerRead (arrived : Nat)
  /-- An acknowledgement that the peer sends by itself. -/
  | peerAck

section Steps

variable {F α D : Type} [QueueFile F α D]
variable (max : Nat) (accepts serializes registered : α → Bool)

/-- An action that the failover is not ready for does nothing. -/
def Connection.step (c : Connection F α D) : Action α → Connection F α D
  | .publish event => { c with session := c.session.step max accepts (.publish event) }
  | .muxerRead timed_out =>
    match c.failover with
    | .loop =>
      { c with
        session := c.session.step max accepts (.read timed_out)
        failover :=
          match (Multiplexing.read timed_out c.session.muxer).1.1 with
          | some d => .writing d
          | none => .loop }
    | _ => c
  | .write =>
    match c.failover with
    | .writing d =>
      let (we, output, sent) := writeEvent serializes c.output d
      { c with failover := .acking we, output := output, forward := c.forward ++ sent }
    | _ => c
  | .flush =>
    match c.failover with
    | .loop =>
      let (we, output) := Bbdo.flush c.output
      { c with failover := .acking we, output := output }
    | _ => c
  | .ackEvents =>
    match c.failover with
    | .acking we =>
      { c with session := c.session.step max accepts (.ackEvents we), failover := .loop }
    | _ => c
  | .streamRead arrived =>
    match c.failover with
    | .loop =>
      -- an event from the peer would go to the engine, and the failover stays in its loop
      let (_, output, rest, sent) := readEvent registered c.output (c.back.take arrived)
      { c with output := output, back := rest ++ c.back.drop arrived, forward := c.forward ++ sent }
    | _ => c
  | .peerRead arrived =>
    let (d, input, rest, sent) := readEvent registered c.input (c.forward.take arrived)
    { c with
      input := input, forward := rest ++ c.forward.drop arrived, back := c.back ++ sent
      received := if d.isSome then c.received + 1 else c.received }
  | .peerAck =>
    let (input, sent) := sendEventAcknowledgement c.input
    { c with input := input, back := c.back ++ sent }

def Connection.run (c : Connection F α D) (actions : List (Action α)) : Connection F α D :=
  actions.foldl (Connection.step max accepts serializes registered) c

/-- A connection just made, negotiated, on a muxer that is told to deliver again. -/
def Connection.start (s : Session F α D) (output_limit input_limit : Nat) : Connection F α D where
  session := s.step max accepts .nackEvents
  failover := .loop
  output := ⟨false, 0, output_limit, 0⟩
  input := ⟨false, 0, input_limit, 0⟩
  forward := []
  back := []
  received := 0

end Steps

/-- What the failover holds of what was acknowledged. -/
def Failover.we {α : Type} : Failover α → Nat
  | .acking we => we
  | _ => 0

/-- Whether the failover holds an event that is not written yet. -/
def Failover.held {α : Type} : Failover α → Nat
  | .writing _ => 1
  | _ => 0

section Invariant

open Connection

variable {F α D : Type} [QueueFile F α D] [LawfulQueueFile F]

/-- All that is or will be acknowledged at the muxer, of what was received so far. -/
def Connection.total (c : Connection F α D) : Nat :=
  c.session.queue.acked + c.failover.we + c.output.acknowledged_events + acksIn c.back +
    c.input.events_received_since_last_ack

/-- The connection started when `base` events were acknowledged. -/
structure Balanced (max : Nat) (registered : α → Bool) (base : Nat) (c : Connection F α D) :
    Prop where
  tracks : Tracks max c.session
  output_coarse : c.output.coarse = false
  input_coarse : c.input.coarse = false
  total_le : c.total ≤ base + c.received
  total_eq : (∀ e, registered e = true) → c.total = base + c.received
  /-- What was received, is in flight or is in hand was delivered by the muxer. -/
  sent_le : base + c.received + eventsIn c.forward + c.failover.held ≤ c.session.queue.cursor
  back_events : eventsIn c.back = 0

theorem balanced_start {max : Nat} (accepts registered : α → Bool) {s : Session F α D}
    (h : Tracks max s) (output_limit input_limit : Nat) :
    Balanced max registered s.queue.acked
      (Connection.start max accepts s output_limit input_limit) where
  tracks := tracks_step accepts h .nackEvents
  output_coarse := rfl
  input_coarse := rfl
  total_le := Nat.le_refl _
  total_eq := fun _ => rfl
  sent_le := Nat.le_refl _
  back_events := rfl

variable {max : Nat} (accepts serializes : α → Bool) {registered : α → Bool} {base : Nat}
  {c : Connection F α D}

theorem balanced_publish (h : Balanced max registered base c) (event : Option α) :
    Balanced max registered base (c.step max accepts serializes registered (.publish event)) := by
  have hq : (c.session.step max accepts (.publish event)).queue.acked = c.session.queue.acked ∧
      (c.session.step max accepts (.publish event)).queue.cursor = c.session.queue.cursor := by
    unfold Session.step
    dsimp only
    rcases event with _ | e
    · exact ⟨rfl, rfl⟩
    dsimp only
    split_ifs
    · exact ⟨rfl, rfl⟩
    · exact ⟨rfl, rfl⟩
  have htotal : (c.step max accepts serializes registered (.publish event)).total = c.total := by
    unfold total Connection.step
    dsimp only
    rw [hq.1]
  exact
    { tracks := tracks_step accepts h.tracks (.publish event)
      output_coarse := h.output_coarse
      input_coarse := h.input_coarse
      total_le := htotal ▸ h.total_le
      total_eq := htotal ▸ h.total_eq
      sent_le := hq.2.symm ▸ h.sent_le
      back_events := h.back_events }

theorem balanced_muxerRead (h : Balanced max registered base c) (timed_out : Bool) :
    Balanced max registered base
      (c.step max accepts serializes registered (.muxerRead timed_out)) := by
  have ht := tracks_step accepts h.tracks (.read timed_out)
  have hle := h.total_le
  have heq := h.total_eq
  have hsent := h.sent_le
  unfold Connection.step
  cases hf : c.failover with
  | writing d => exact h
  | acking we => exact h
  | loop =>
      dsimp only
      unfold total at hle heq
      rw [hf] at hle heq hsent
      cases he : c.session.muxer.events[c.session.muxer.pos]? with
      | none =>
          rw [step_read_none max accepts timed_out he, read_event, he]
          exact ⟨h.tracks, h.output_coarse, h.input_coarse, hle, heq, hsent, h.back_events⟩
      | some d =>
          obtain ⟨-, -, h3, h4⟩ := AckQueue.deliver_of_next (next_of_read h.tracks he)
          have hq : (c.session.step max accepts (.read timed_out)).queue =
              c.session.queue.deliver := by
            rw [step_read_some max accepts timed_out he]
          rw [← hq] at h3 h4
          rw [read_event, he]
          refine ⟨ht, h.output_coarse, h.input_coarse, ?_, fun hreg => ?_, ?_, h.back_events⟩
          · unfold total
            dsimp only
            rw [h3]
            exact hle
          · unfold total
            dsimp only
            rw [h3]
            exact heq hreg
          · dsimp only
            rw [h4]
            exact Nat.succ_le_succ hsent

theorem balanced_write (h : Balanced max registered base c) :
    Balanced max registered base (c.step max accepts serializes registered .write) := by
  have hle := h.total_le
  have heq := h.total_eq
  have hsent := h.sent_le
  unfold Connection.step
  cases hf : c.failover with
  | loop => exact h
  | acking we => exact h
  | writing d =>
      unfold total at hle heq
      rw [hf] at hle heq hsent
      -- what the stream counted changes hands, and the event goes to the link if it can
      have hlink : eventsIn (c.forward ++ (if serializes d then [Message.event d] else [])) ≤
          eventsIn c.forward + 1 := by
        rw [eventsIn_append]
        split
        · exact Nat.le_refl _
        · exact Nat.le_succ _
      refine ⟨h.tracks, h.output_coarse, h.input_coarse, ?_, fun hreg => ?_, ?_, h.back_events⟩
      · unfold total
        dsimp only [writeEvent, Failover.we] at hle ⊢
        omega
      · have := heq hreg
        unfold total
        dsimp only [writeEvent, Failover.we] at this ⊢
        omega
      · dsimp only [writeEvent, Failover.held] at hsent ⊢
        omega

theorem balanced_flush (h : Balanced max registered base c) :
    Balanced max registered base (c.step max accepts serializes registered .flush) := by
  have hle := h.total_le
  have heq := h.total_eq
  have hsent := h.sent_le
  unfold Connection.step
  cases hf : c.failover with
  | writing d => exact h
  | acking we => exact h
  | loop =>
      unfold total at hle heq
      rw [hf] at hle heq hsent
      refine ⟨h.tracks, h.output_coarse, h.input_coarse, ?_, fun hreg => ?_, hsent, h.back_events⟩
      · unfold total
        dsimp only [Bbdo.flush, Failover.we] at hle ⊢
        omega
      · have := heq hreg
        unfold total
        dsimp only [Bbdo.flush, Failover.we] at this ⊢
        omega

/-- **The muxer gives up all that it is asked for**: it delivered that many events. -/
theorem acked_ackEvents (h : Balanced max registered base c) {we : Nat}
    (hf : c.failover = .acking we) :
    (c.session.step max accepts (.ackEvents we)).queue.acked = c.session.queue.acked + we := by
  have hle := h.total_le
  have hsent := h.sent_le
  unfold total at hle
  rw [hf] at hle
  dsimp only [Failover.we] at hle
  show min (c.session.queue.acked + (we : Int).toNat) c.session.queue.cursor = _
  rw [Int.toNat_natCast]
  omega

theorem balanced_ackEvents (h : Balanced max registered base c) :
    Balanced max registered base (c.step max accepts serializes registered .ackEvents) := by
  have hle := h.total_le
  have heq := h.total_eq
  have hsent := h.sent_le
  unfold Connection.step
  cases hf : c.failover with
  | loop => exact h
  | writing d => exact h
  | acking we =>
      have hack := acked_ackEvents accepts h hf
      unfold total at hle heq
      rw [hf] at hle heq hsent
      refine ⟨tracks_step accepts h.tracks (.ackEvents we), h.output_coarse, h.input_coarse, ?_,
        fun hreg => ?_, hsent, h.back_events⟩
      · unfold total
        dsimp only [Failover.we] at hle ⊢
        omega
      · have := heq hreg
        unfold total
        dsimp only [Failover.we] at this ⊢
        omega

omit [QueueFile F α D] [LawfulQueueFile F] in
theorem acksIn_take_drop (l : List (Message α)) (n : Nat) :
    acksIn (l.take n) + acksIn (l.drop n) = acksIn l := by
  rw [← acksIn_append, List.take_append_drop]

omit [QueueFile F α D] [LawfulQueueFile F] in
theorem eventsIn_take_drop (l : List (Message α)) (n : Nat) :
    eventsIn (l.take n) + eventsIn (l.drop n) = eventsIn l := by
  rw [← eventsIn_append, List.take_append_drop]

/-- **An acknowledgement that is read is counted**, whatever comes before and after it. -/
theorem balanced_streamRead (h : Balanced max registered base c) (arrived : Nat) :
    Balanced max registered base
      (c.step max accepts serializes registered (.streamRead arrived)) := by
  have hle := h.total_le
  have heq := h.total_eq
  have hsent := h.sent_le
  have hback := h.back_events
  unfold Connection.step
  cases hf : c.failover with
  | writing d => exact h
  | acking we => exact h
  | loop =>
      obtain ⟨d, output, rest, sent, hr, hspec⟩ :=
        readEvent_spec registered h.output_coarse (c.back.take arrived)
      have h1 := hspec.acknowledged
      have h2 := hspec.taken
      have h3 := hspec.sent_events
      have h4 := acksIn_take_drop c.back arrived
      have h5 := eventsIn_take_drop c.back arrived
      unfold total at hle heq
      rw [hf] at hle heq hsent
      dsimp only
      rw [hr]
      refine ⟨h.tracks, hspec.coarse, h.input_coarse, ?_, fun hreg => ?_, ?_, ?_⟩
      · unfold total
        dsimp only
        rw [acksIn_append]
        omega
      · have := heq hreg
        unfold total
        dsimp only
        rw [acksIn_append]
        omega
      · dsimp only
        rw [eventsIn_append, h3]
        exact hsent
      · dsimp only
        rw [eventsIn_append]
        omega

/-- **What the peer counts it received**, and what it received was delivered. -/
theorem balanced_peerRead (h : Balanced max registered base c) (arrived : Nat) :
    Balanced max registered base
      (c.step max accepts serializes registered (.peerRead arrived)) := by
  have hle := h.total_le
  have heq := h.total_eq
  have hsent := h.sent_le
  have hback := h.back_events
  unfold Connection.step
  obtain ⟨d, input, rest, sent, hr, hspec⟩ :=
    readEvent_spec registered h.input_coarse (c.forward.take arrived)
  have h1 := hspec.counted
  have h2 := hspec.taken
  have h3 := hspec.sent_events
  have h4 := eventsIn_take_drop c.forward arrived
  unfold total at hle heq
  dsimp only
  rw [hr]
  refine ⟨h.tracks, h.output_coarse, hspec.coarse, ?_, fun hreg => ?_, ?_, ?_⟩
  · unfold total
    dsimp only
    rw [acksIn_append]
    rcases d with _ | _ | e
    all_goals
      simp only [Option.join_none, Option.join_some, Option.isSome_none, Option.isSome_some,
        if_true, Bool.false_eq_true, if_false] at h1 ⊢
      omega
  · have hk := hspec.known hreg
    have := heq hreg
    unfold total
    dsimp only
    rw [acksIn_append]
    rw [hk] at h1
    split at h1
    all_goals
      rename_i hd
      simp only [hd, if_true, Bool.false_eq_true, if_false]
      omega
  · dsimp only
    rw [eventsIn_append]
    split at h2
    all_goals
      rename_i hd
      simp only [hd, if_true, Bool.false_eq_true, if_false]
      omega
  · dsimp only
    rw [eventsIn_append, h3]
    exact hback

theorem balanced_peerAck (h : Balanced max registered base c) :
    Balanced max registered base (c.step max accepts serializes registered .peerAck) := by
  have hle := h.total_le
  have heq := h.total_eq
  have hback := h.back_events
  unfold total at hle heq
  unfold Connection.step
  dsimp only
  rw [sendEventAcknowledgement_eq h.input_coarse]
  refine ⟨h.tracks, h.output_coarse, h.input_coarse, ?_, fun hreg => ?_, h.sent_le, ?_⟩
  · unfold total
    dsimp only
    rw [acksIn_append]
    dsimp only [acksIn]
    omega
  · have := heq hreg
    unfold total
    dsimp only
    rw [acksIn_append]
    dsimp only [acksIn]
    omega
  · dsimp only
    rw [eventsIn_append, hback]
    rfl

/-- **One action.** -/
theorem balanced_step (h : Balanced max registered base c) (a : Action α) :
    Balanced max registered base (c.step max accepts serializes registered a) := by
  cases a with
  | publish event => exact balanced_publish accepts serializes h event
  | muxerRead timed_out => exact balanced_muxerRead accepts serializes h timed_out
  | write => exact balanced_write accepts serializes h
  | flush => exact balanced_flush accepts serializes h
  | ackEvents => exact balanced_ackEvents accepts serializes h
  | streamRead arrived => exact balanced_streamRead accepts serializes h arrived
  | peerRead arrived => exact balanced_peerRead accepts serializes h arrived
  | peerAck => exact balanced_peerAck accepts serializes h

/-- **Any interleaving.** -/
theorem balanced_run (h : Balanced max registered base c) (actions : List (Action α)) :
    Balanced max registered base (c.run max accepts serializes registered actions) := by
  induction actions generalizing c with
  | nil => exact h
  | cons a actions ih => exact ih (balanced_step accepts serializes h a)

/-- Once the acknowledgements are read, a `flush` passes all of them on to the muxer. -/
theorem acked_of_flush (h : Balanced max registered base c)
    (hreg : ∀ e, registered e = true) (hloop : c.failover = .loop) (hback : acksIn c.back = 0) :
    ((c.step max accepts serializes registered .flush).step max accepts serializes registered
        .ackEvents).session.queue.acked + c.input.events_received_since_last_ack =
      base + c.received := by
  have heq := h.total_eq hreg
  have h' := balanced_flush accepts serializes h
  have hflush : c.step max accepts serializes registered .flush =
      { c with
        failover := .acking c.output.acknowledged_events
        output := { c.output with acknowledged_events := 0 } } := by
    unfold Connection.step
    rw [hloop]
    rfl
  rw [hflush] at h' ⊢
  unfold total at heq
  rw [hloop, hback] at heq
  have hack := acked_ackEvents accepts h' rfl
  show (c.session.step max accepts (.ackEvents _)).queue.acked + _ = _
  rw [hack]
  dsimp only [Failover.we] at heq ⊢
  omega

/--
**Nothing is acknowledged that the peer did not receive**, in any interleaving. No
acknowledgement is counted twice or lost: what was received is in one place of
`total`, the muxer gives up all that `ack_events` is called with, and once the link
has no acknowledgement left a `flush` leaves nothing but what the peer has counted.
-/
theorem acknowledged_is_received (accepts serializes registered : α → Bool) {s : Session F α D}
    (h : Tracks max s) (output_limit input_limit : Nat) (actions : List (Action α)) :
    let c := (Connection.start max accepts s output_limit input_limit).run max accepts serializes
      registered actions
    let base := s.queue.acked
    Tracks max c.session ∧
      c.session.queue.acked ≤ base + c.received ∧
      c.total ≤ base + c.received ∧
      (∀ we, c.failover = .acking we →
        (c.step max accepts serializes registered .ackEvents).session.queue.acked =
          c.session.queue.acked + we) ∧
      ((∀ e, registered e = true) →
        c.total = base + c.received ∧
        (c.failover = .loop → acksIn c.back = 0 →
          ((c.step max accepts serializes registered .flush).step max accepts serializes registered
              .ackEvents).session.queue.acked + c.input.events_received_since_last_ack =
            base + c.received)) := by
  intro c base
  have hb : Balanced max registered base c :=
    balanced_run accepts serializes (balanced_start accepts registered h output_limit input_limit) actions
  have hle := hb.total_le
  refine ⟨hb.tracks, ?_, hle, fun we hf => ?_, fun hreg => ⟨hb.total_eq hreg, ?_⟩⟩
  · unfold total at hle
    omega
  · unfold Connection.step
    rw [hf]
    exact acked_ackEvents accepts hb hf
  · exact fun hloop hback => acked_of_flush accepts serializes hb hreg hloop hback

end Invariant

/-- One event, from its publication to its acknowledgement at the muxer. -/
theorem acknowledged_is_received_once :
    let s : Session (List Nat) Nat (List Nat) := Session.start 2 false [] [] []
    let c := (Connection.start 2 (fun _ => true) s 1000 1000).run 2 (fun _ => true) (fun _ => true)
      (fun _ => true)
      [.publish (some 7), .muxerRead false, .write, .peerRead 1, .peerAck, .ackEvents,
        .streamRead 1, .flush, .ackEvents]
    c.session.queue.acked ≤ s.queue.acked + c.received ∧ c.total = s.queue.acked + c.received := by
  intro s c
  have hs : Tracks 2 s := tracks_start (F := List Nat) 2 false rfl rfl
  obtain ⟨-, h1, -, -, h2⟩ := acknowledged_is_received (fun _ => true) (fun _ => true)
    (fun _ => true) hs 1000 1000
    [.publish (some 7), .muxerRead false, .write, .peerRead 1, .peerAck, .ackEvents,
      .streamRead 1, .flush, .ackEvents]
  exact ⟨h1, (h2 fun _ => rfl).1⟩

end CentreonBroker.Processing
