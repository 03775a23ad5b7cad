import CentreonBroker.Multiplexing.MuxerSpec

/-!
# A muxer delivers in order until it is acknowledged

One muxer, and the calls it gets in any order. Beside it runs the queue it stands
for (`AckQueue`), which remembers all that was published and only three ranks. The
muxer holds what this queue has not had acknowledged, in memory and then in the
file, and its `_pos` is as far from the front as the queue's cursor is from what is
acknowledged: `Tracks`, that each call keeps.
-/

namespace CentreonBroker.Multiplexing

open LawfulQueueFile AckQueue

/-- A call to a muxer. -/
inductive Op (α : Type) where
  | publish (event : Option α)
  | read (timed_out : Bool)
  | ackEvents (count : Int)
  | nackEvents

/-- A muxer, the queue it stands for, and what it delivered since the last `nack_events`. -/
structure Session (F α D : Type) where
  muxer : Muxer F α D
  queue : AckQueue α
  delivered : List α

section Operations

variable {F α D : Type} [QueueFile F α D]

def Session.step (max : Nat) (accepts : α → Bool) (s : Session F α D) : Op α → Session F α D
  | .publish event =>
    { s with
      muxer := publish max accepts s.muxer event
      queue :=
        match event with
        | some e => if accepts e then s.queue.publish e else s.queue
        | none => s.queue }
  | .read timed_out =>
    match read timed_out s.muxer with
    | ((none, _), m) => { s with muxer := m }
    | ((some event, _), m) =>
      { muxer := m, queue := s.queue.deliver, delivered := s.delivered ++ [event] }
  | .ackEvents count =>
    { s with muxer := ackEvents max s.muxer count, queue := s.queue.ack count.toNat }
  | .nackEvents =>
    { muxer := nackEvents s.muxer, queue := s.queue.nack, delivered := [] }

def Session.run (max : Nat) (accepts : α → Bool) (s : Session F α D) (ops : List (Op α)) :
    Session F α D :=
  ops.foldl (Session.step max accepts) s

/-- The constructor, on what the disk has, which holds the events of `stored`. -/
def Session.start (max : Nat) (persistent : Bool) (memory queue : D) (stored : List α) :
    Session F α D where
  muxer := (new max persistent memory queue).1
  queue := AckQueue.start stored
  delivered := []

end Operations

variable {F α D : Type} [QueueFile F α D] [LawfulQueueFile F]

/-- The muxer holds what its queue has not had acknowledged. -/
structure Tracks (max : Nat) (s : Session F α D) : Prop where
  sound : s.muxer.Sound
  full : s.muxer.Full max
  pos_eq : s.queue.acked + s.muxer.pos = s.queue.cursor
  pending_eq : ∃ again u, s.muxer.file.Rep again u ∧ s.queue.pending = s.muxer.events ++ u
  delivered_eq : s.delivered = s.queue.window

theorem tracks_start (max : Nat) (persistent : Bool) {memory queue : D} {ms qs : List α}
    (hm : Stored F memory ms) (hq : Stored F queue qs) :
    Tracks max
      (Session.start (F := F) max persistent memory queue
        ((if persistent then ms else []) ++ qs)) := by
  obtain ⟨hs, hf, hp, ⟨again, u, hr, hev⟩, -⟩ := new_spec (F := F) max persistent hm hq
  exact
    { sound := hs
      full := hf
      pos_eq := by rw [Session.start, hp]; rfl
      pending_eq := ⟨again, u, hr, hev⟩
      delivered_eq := (window_start _).symm }

variable {s : Session F α D} {max : Nat}

variable (accepts : α → Bool)

/-- **What is published goes last**, in memory while there is room, in the file after that. -/
theorem tracks_publish (h : Tracks max s)
    (event : Option α) : Tracks max (s.step max accepts (.publish event)) := by
  unfold Session.step publish
  rcases event with _ | e
  · exact h
  dsimp only
  have hsz := h.sound.size_eq
  obtain ⟨again, u, hr, hpend⟩ := h.pending_eq
  split_ifs with hacc hmax
  · refine ⟨⟨hsz, h.sound.pos_le⟩, fun _ _ => ?_, h.pos_eq, ⟨again, u ++ [e], ?_, ?_⟩, ?_⟩
    · show max ≤ s.muxer.events.length
      omega
    · exact write_rep e (Queue.rep_toWrite hr)
    · rw [pending_publish, hpend, List.append_assoc]
    · rw [window_publish]
      exact h.delivered_eq
  · -- there is room in memory, so there is no file, and nothing stands after memory
    obtain ⟨d, hfile⟩ : ∃ d, s.muxer.file = .closed d := by
      cases hfile : s.muxer.file with
      | closed d => exact ⟨d, rfl⟩
      | opened f =>
          have := h.full f hfile
          omega
    have hu : again = [] ∧ u = [] ∧ Stored F d [] := by
      rw [hfile] at hr
      exact hr
    obtain ⟨rfl, rfl, hd⟩ := hu
    refine ⟨sound_pushToQueue h.sound e, ?_, ?_, ⟨[], [], hr, ?_⟩, ?_⟩
    · intro f hf
      cases hfile.symm.trans hf
    · rw [pos_pushToQueue]
      exact h.pos_eq
    · rw [pending_publish, hpend, List.append_nil, List.append_nil]
      rfl
    · rw [window_publish]
      exact h.delivered_eq
  · exact h

omit [QueueFile F α D] [LawfulQueueFile F] in
theorem read_event (timed_out : Bool) (m : Muxer F α D) :
    (read timed_out m).1.1 = m.events[m.pos]? := by
  unfold read
  split
  · rename_i e he; rw [he]
  · rename_i he; rw [he]

omit [LawfulQueueFile F] in
theorem step_read_none (max : Nat) (accepts : α → Bool) (timed_out : Bool)
    (he : s.muxer.events[s.muxer.pos]? = none) : s.step max accepts (.read timed_out) = s := by
  unfold Session.step read
  rw [he]

omit [LawfulQueueFile F] in
theorem step_read_some (max : Nat) (accepts : α → Bool) (timed_out : Bool)
    {e : α} (he : s.muxer.events[s.muxer.pos]? = some e) :
    s.step max accepts (.read timed_out) =
      { muxer := { s.muxer with pos := s.muxer.pos + 1 }
        queue := s.queue.deliver
        delivered := s.delivered ++ [e] } := by
  unfold Session.step read
  rw [he]

/-- **What is read is the next element of the queue.** -/
theorem next_of_read (h : Tracks max s) {e : α}
    (he : s.muxer.events[s.muxer.pos]? = some e) : s.queue.next = some e := by
  obtain ⟨again, u, -, hpend⟩ := h.pending_eq
  have hp := h.pos_eq
  obtain ⟨hlt, -⟩ := List.getElem?_eq_some_iff.mp he
  rw [next_eq, hpend, show s.queue.cursor - s.queue.acked = s.muxer.pos by omega,
    List.getElem?_append_left hlt]
  exact he

theorem tracks_read (h : Tracks max s)
    (timed_out : Bool) : Tracks max (s.step max accepts (.read timed_out)) := by
  cases he : s.muxer.events[s.muxer.pos]? with
  | none => rw [step_read_none max accepts timed_out he]; exact h
  | some e =>
      obtain ⟨hlt, -⟩ := List.getElem?_eq_some_iff.mp he
      have hnext := next_of_read h he
      obtain ⟨h1, -, h3, h4⟩ := deliver_of_next hnext
      rw [step_read_some max accepts timed_out he]
      refine ⟨⟨h.sound.size_eq, hlt⟩, h.full, ?_, ?_, ?_⟩
      · have := h.pos_eq
        dsimp only
        omega
      · rw [AckQueue.pending, h1, h3]
        exact h.pending_eq
      · rw [window_deliver hnext, ← h.delivered_eq]

theorem tracks_ackEvents (h : Tracks max s)
    (count : Int) : Tracks max (s.step max accepts (.ackEvents count)) := by
  unfold Session.step ackEvents
  obtain ⟨again, u, hr, hpend⟩ := h.pending_eq
  have hp := h.pos_eq
  dsimp only
  split_ifs with hc
  · rw [hc, Int.toNat_zero, AckQueue.ack_zero]
    exact h
  · obtain ⟨hs, hev, hpos, hfile⟩ := removeEvents_spec count.toNat h.sound
    have hf := fillMemory_spec max hs (hfile ▸ hr)
    obtain ⟨l, again', u', rfl, hev', hr'⟩ := hf.moved
    have hle := h.sound.pos_le
    refine ⟨hf.sound, hf.full, ?_, ⟨again', u', hr', ?_⟩, h.delivered_eq⟩
    · rw [hf.pos_eq, hpos]
      show min (s.queue.acked + count.toNat) s.queue.cursor + _ = s.queue.cursor
      omega
    · rw [hev', hev, pending_ack, hpend,
        show s.queue.cursor - s.queue.acked = s.muxer.pos by omega,
        List.drop_append_of_le_length (by omega), List.append_assoc]

theorem tracks_nackEvents
    (h : Tracks max s) : Tracks max (s.step max accepts .nackEvents) :=
  { sound := ⟨h.sound.size_eq, Nat.zero_le _⟩
    full := h.full
    pos_eq := rfl
    pending_eq := h.pending_eq
    delivered_eq := (window_nack _).symm }

/-- **One call.** -/
theorem tracks_step (h : Tracks max s)
    (op : Op α) : Tracks max (s.step max accepts op) := by
  cases op with
  | publish event => exact tracks_publish accepts h event
  | read timed_out => exact tracks_read accepts h timed_out
  | ackEvents count => exact tracks_ackEvents accepts h count
  | nackEvents => exact tracks_nackEvents accepts h

/-- **Any calls, in any order.** -/
theorem tracks_run (h : Tracks max s)
    (ops : List (Op α)) : Tracks max (s.run max accepts ops) := by
  induction ops generalizing s with
  | nil => exact h
  | cons op ops ih => exact ih (tracks_step accepts h op)

/-! ## What callers see -/

/-- What is acknowledged stays so, and what is published keeps its rank. -/
theorem rank_kept (h : Tracks max s)
    (ops : List (Op α)) : s.queue.acked ≤ (s.run max accepts ops).queue.acked ∧
      s.queue.published <+: (s.run max accepts ops).queue.published := by
  induction ops generalizing s with
  | nil => exact ⟨Nat.le_refl _, List.prefix_refl _⟩
  | cons op ops ih =>
      obtain ⟨h1, h2⟩ := ih (tracks_step accepts h op)
      have hop : s.queue.acked ≤ (s.step max accepts op).queue.acked ∧
          s.queue.published <+: (s.step max accepts op).queue.published := by
        cases op with
        | publish event =>
            unfold Session.step
            dsimp only
            rcases event with _ | e
            · exact ⟨Nat.le_refl _, List.prefix_refl _⟩
            dsimp only
            split_ifs
            · exact ⟨Nat.le_refl _, List.prefix_append _ _⟩
            · exact ⟨Nat.le_refl _, List.prefix_refl _⟩
        | read timed_out =>
            cases he : s.muxer.events[s.muxer.pos]? with
            | none =>
                rw [step_read_none max accepts timed_out he]
                exact ⟨Nat.le_refl _, List.prefix_refl _⟩
            | some e =>
                obtain ⟨h1, -, h3, -⟩ := deliver_of_next (next_of_read h he)
                rw [step_read_some max accepts timed_out he, h1, h3]
                exact ⟨Nat.le_refl _, List.prefix_refl _⟩
        | ackEvents count =>
            refine ⟨?_, List.prefix_refl _⟩
            have := s.queue.acked_le
            show _ ≤ min (s.queue.acked + count.toNat) s.queue.cursor
            omega
        | nackEvents => exact ⟨Nat.le_refl _, List.prefix_refl _⟩
      exact ⟨Nat.le_trans hop.1 h1, hop.2.trans h2⟩

omit [LawfulQueueFile F] in
/-- Reading as many times as there are events in memory that were not read. -/
theorem delivered_reads (max : Nat) (accepts : α → Bool) (k : Nat)
    (hk : s.muxer.pos + k ≤ s.muxer.events.length) :
    (s.run max accepts (List.replicate k (.read false))).delivered =
      s.delivered ++ (s.muxer.events.drop s.muxer.pos).take k := by
  induction k generalizing s with
  | zero => exact (List.append_nil _).symm
  | succ k ih =>
      have hlt : s.muxer.pos < s.muxer.events.length := by omega
      have hstep := step_read_some max accepts false (List.getElem?_eq_getElem hlt)
      have hk' : (s.step max accepts (.read false)).muxer.pos + k ≤
          (s.step max accepts (.read false)).muxer.events.length := by
        rw [hstep]
        show s.muxer.pos + 1 + k ≤ s.muxer.events.length
        omega
      have := ih hk'
      rw [hstep] at this
      rw [List.replicate_succ, List.drop_eq_getElem_cons hlt, List.take_succ_cons]
      show (Session.run max accepts (s.step max accepts (.read false)) _).delivered = _
      rw [hstep, this, List.append_assoc]
      rfl

/-- A file that is the list of what was written to it and not read. -/
instance fifoFile : QueueFile (List α) α (List α) where
  openFile d := d
  write f a := f ++ [a]
  read
    | [] => .error []
    | a :: f => .ok (a, f)
  close f := f
  left := List.length
  read_lt {f a f'} h := by
    cases f with
    | nil => cases h
    | cons b f => cases h; exact Nat.lt_succ_self _

instance lawfulFifoFile : LawfulQueueFile (List α) where
  Rep f again u := again = [] ∧ f = u
  Stored d l := d = l
  open_rep h := ⟨rfl, h⟩
  write_rep a h := ⟨h.1, congrArg (· ++ [a]) h.2⟩
  read_rep {f again u a f'} h hr := by
    obtain ⟨rfl, rfl⟩ := h
    cases f with
    | nil => cases hr
    | cons b f => cases hr; exact ⟨[], _, rfl, rfl, rfl⟩
  read_shutdown {f again u d} h hr := by
    obtain ⟨rfl, rfl⟩ := h
    cases f with
    | nil => cases hr; exact ⟨rfl, rfl⟩
    | cons b f => cases hr
  close_stored {f again u} h := by
    obtain ⟨rfl, rfl⟩ := h
    rfl

/-- The events a queue file holds. -/
def Queue.content : Queue (List α) (List α) → List α
  | .closed d => d
  | .opened f => f

theorem Queue.content_eq {q : Queue (List α) (List α)} {again u : List α} (h : q.Rep again u) :
    q.content = u := by
  cases q with
  | closed d =>
      obtain ⟨-, rfl, hd⟩ := h
      exact hd
  | opened f => exact h.2

/-- What a muxer promises, of the events that were published to it and their ranks. -/
structure InOrder (max : Nat) (accepts : α → Bool) (s : Session (List α) α (List α)) : Prop where
  size_eq : s.muxer.events_size = s.muxer.events.length
  /-- `_pos` is on the first event of memory that was not delivered. -/
  pos_eq : s.muxer.pos = s.queue.cursor - s.queue.acked ∧ s.muxer.pos ≤ s.muxer.events.length
  full : ∀ f, s.muxer.file = .opened f → max ≤ s.muxer.events.length
  /-- Memory, then the file, have all that is not acknowledged in the order it was published. -/
  held : s.muxer.events ++ s.muxer.file.content = s.queue.published.drop s.queue.acked
  /-- Since the last `nack_events`, each event from its rank on, none skipped and none twice. -/
  delivered_eq : s.delivered = (s.queue.published.take s.queue.cursor).drop s.queue.base
  /-- Nothing to read: all was delivered, or memory is full of what is to be acknowledged. -/
  idle : ∀ timed_out, (read timed_out s.muxer).1.1 = none →
    s.queue.cursor = s.queue.published.length ∨ max ≤ s.queue.cursor - s.queue.acked
  /-- Whatever is called next, an event that is acknowledged by now is not delivered again. -/
  acked_gone : ∀ ops timed_out e,
    (read timed_out (s.run max accepts ops).muxer).1.1 = some e →
      s.queue.published <+: (s.run max accepts ops).queue.published ∧
        ∃ rank, s.queue.acked ≤ rank ∧ (s.run max accepts ops).queue.published[rank]? = some e
  /-- `nack_events`, and what was delivered and not acknowledged comes again, in order. -/
  again : ((s.step max accepts .nackEvents).run max accepts
      (List.replicate (s.queue.cursor - s.queue.acked) (.read false))).delivered =
    (s.queue.published.take s.queue.cursor).drop s.queue.acked
  /-- `ack_events` removes events from the front, none of which was not read. -/
  ack_read : ∀ count, ∃ k ≤ s.muxer.pos,
    (ackEvents max s.muxer count).events ++ (ackEvents max s.muxer count).file.content =
      (s.muxer.events ++ s.muxer.file.content).drop k

theorem inOrder_of_tracks {s : Session (List α) α (List α)}
    (h : Tracks max s) : InOrder max accepts s := by
  obtain ⟨again, u, hr, hpend⟩ := h.pending_eq
  have hp := h.pos_eq
  have hle := h.sound.pos_le
  have hcontent := Queue.content_eq hr
  have hlen : s.queue.published.length = s.queue.acked + s.muxer.events.length + u.length := by
    have hl := congrArg List.length hpend
    have := Nat.le_trans s.queue.acked_le s.queue.cursor_le
    rw [AckQueue.pending, List.length_drop, List.length_append] at hl
    omega
  refine
    { size_eq := h.sound.size_eq
      pos_eq := ⟨by omega, hle⟩
      full := h.full
      held := by rw [hcontent, ← hpend]; rfl
      delivered_eq := h.delivered_eq
      idle := ?_
      acked_gone := ?_
      again := ?_
      ack_read := ?_ }
  · intro timed_out hnone
    have hend : s.muxer.events.length ≤ s.muxer.pos := by
      rw [read_event] at hnone
      exact List.getElem?_eq_none_iff.mp hnone
    cases hfile : s.muxer.file with
    | closed d =>
        rw [hfile] at hr
        obtain ⟨-, rfl, -⟩ := hr
        rw [List.length_nil] at hlen
        exact Or.inl (by omega)
    | opened f =>
        have := h.full f hfile
        exact Or.inr (by omega)
  · intro ops timed_out e hsome
    obtain ⟨hack, hpub⟩ := rank_kept accepts h ops
    have h' := tracks_run accepts h ops
    rw [read_event] at hsome
    exact ⟨hpub, _, Nat.le_trans hack (s.run max accepts ops).queue.acked_le,
      next_of_read h' hsome⟩
  · have hk : s.queue.cursor - s.queue.acked = s.muxer.pos := by omega
    have hroom : 0 + s.muxer.pos ≤ s.muxer.events.length := by omega
    rw [hk, delivered_reads max accepts s.muxer.pos hroom]
    show [] ++ (s.muxer.events.drop 0).take s.muxer.pos = _
    have hpend' : (s.queue.pending).take s.muxer.pos = s.muxer.events.take s.muxer.pos := by
      rw [hpend, List.take_append_of_le_length hle]
    rw [List.nil_append, List.drop_zero, List.drop_take, hk,
      ← hpend']
    rfl
  · intro count
    have h' := tracks_ackEvents accepts h count
    obtain ⟨again', u', hr', hpend'⟩ := h'.pending_eq
    refine ⟨min count.toNat (s.queue.cursor - s.queue.acked), by omega, ?_⟩
    have hc' : (ackEvents max s.muxer count).file.content = u' := Queue.content_eq hr'
    rw [hc', hcontent, ← hpend, ← pending_ack]
    exact hpend'.symm

/--
**A muxer delivers in order**, whatever is called and in whichever order, from
whatever was in its files when it was constructed.
-/
theorem muxer_inOrder (max : Nat) (persistent : Bool) (accepts : α → Bool)
    (memory queue : List α) (ops : List (Op α)) :
    InOrder max accepts
      ((Session.start max persistent memory queue
        ((if persistent then memory else []) ++ queue)).run max accepts ops) :=
  inOrder_of_tracks accepts (tracks_run accepts (tracks_start max persistent rfl rfl) ops)

end CentreonBroker.Multiplexing
