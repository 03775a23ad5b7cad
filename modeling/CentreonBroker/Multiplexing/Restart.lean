import CentreonBroker.Multiplexing.Delivery
import CentreonBroker.PersistentFile

/-!
# A muxer that is destroyed and constructed again

The destructor closes the queue file and writes what is in memory to the memory
file; the constructor reads the two back. What comes back is what was not
acknowledged, with one exception: the events of the queue file that are in memory
and whose part was not read to its end are in both files, and come back twice.

So a restart is exact when the queue file was not read since it was opened, and
only then (`drain_restart_iff`). Runs in which every restart is such a one deliver
every event in order, as one muxer does (`tracks_life`).
-/

namespace CentreonBroker.Multiplexing

open LawfulQueueFile

section Generic

variable {F α D : Type} [QueueFile F α D]

/-- What a muxer delivers in `n` reads to a reader that acknowledges each event at once. -/
def drain (max : Nat) : Nat → Muxer F α D → List α
  | 0, _ => []
  | n + 1, m =>
    match read false m with
    | ((some event, _), m) => event :: drain max n (ackEvents max m 1)
    | ((none, _), _) => []

/-- A persistent muxer over the runs of a process, and what the disk has of its memory file. -/
structure Life (F α D : Type) where
  session : Session F α D
  memory : D

inductive LifeOp (α : Type) where
  | call (op : Op α)
  /-- The destructor, then the constructor. -/
  | restart

/-- The muxer and the memory file after a restart. -/
def restart (max : Nat) (m : Muxer F α D) (memory : D) : Muxer F α D × D :=
  let (memory, queue) := clean true m memory
  new max true memory queue

/-- For the queue it stands for, a restart is a `nack_events`. -/
def Life.step (max : Nat) (accepts : α → Bool) (l : Life F α D) : LifeOp α → Life F α D
  | .call op => { l with session := l.session.step max accepts op }
  | .restart =>
    let (m, memory) := restart max l.session.muxer l.memory
    { session := { muxer := m, queue := l.session.queue.nack, delivered := [] }, memory := memory }

def Life.run (max : Nat) (accepts : α → Bool) (l : Life F α D) (ops : List (LifeOp α)) :
    Life F α D :=
  ops.foldl (Life.step max accepts) l

/-- The first muxer, on what the disk has, which holds the events of `stored`. -/
def Life.start (max : Nat) (memory queue : D) (stored : List α) : Life F α D where
  session := Session.start max true memory queue stored
  memory := (new (F := F) max true memory queue).2

variable [LawfulQueueFile F]

/-- A reader that acknowledges gets memory, then the file. -/
theorem drain_eq {max : Nat} (hmax : 1 ≤ max) (n : Nat) : ∀ {m : Muxer F α D} {again u : List α},
    m.Sound → m.Full max → m.pos = 0 → m.file.Rep again u →
    drain max n m = (m.events ++ u).take n := by
  induction n with
  | zero => intro m again u _ _ _ _; rfl
  | succ n ih =>
    intro m again u hs hf hp hr
    cases hev : m.events with
    | nil =>
      -- memory is empty, so there is no file
      have hu : u = [] := by
        cases hfile : m.file with
        | closed d => rw [hfile] at hr; exact hr.2.1
        | opened f =>
            have := hf f hfile
            rw [hev, List.length_nil] at this
            omega
      rw [drain, read, hev, hu]
      rfl
    | cons e es =>
      have hread : read false m = ((some e, true), { m with pos := 1 }) := by
        rw [read, hp, hev]
        rfl
      have hs' : Muxer.Sound { m with pos := 1 } :=
        ⟨hs.size_eq, by rw [hev]; exact Nat.succ_pos _⟩
      obtain ⟨hs₂, hev₂, hp₂, hfile₂⟩ := removeEvents_spec 1 hs'
      have hfill := fillMemory_spec max hs₂ (hfile₂ ▸ hr)
      obtain ⟨l, again', u', rfl, hev', hr'⟩ := hfill.moved
      have hack : ackEvents max { m with pos := 1 } 1 =
          fillMemory max (removeEvents 1 { m with pos := 1 }) := rfl
      have hpos : (ackEvents max { m with pos := 1 } 1).pos = 0 := by
        rw [hack, hfill.pos_eq, hp₂]
        rfl
      rw [drain, hread]
      dsimp only
      rw [ih (hack ▸ hfill.sound) (hack ▸ hfill.full) hpos (hack ▸ hr'), hack, hev', hev₂]
      dsimp only
      rw [hev, List.append_assoc]
      rfl

variable {again u : List α}

theorem rep_writes {f : F} (hr : LawfulQueueFile.Rep f again u) (l : List α) :
    LawfulQueueFile.Rep (l.foldl QueueFile.write f) again (u ++ l) := by
  induction l generalizing f u with
  | nil => rw [List.append_nil]; exact hr
  | cons a l ih =>
    have := ih (write_rep a hr)
    rw [List.append_assoc] at this
    exact this

variable {m : Muxer F α D}

/-- What the destructor leaves: memory in one file, in the other what it gives when opened again. -/
theorem clean_spec (hr : m.file.Rep again u) {memory : D}
    (hm : Stored F memory []) :
    Stored F (clean true m memory).1 m.events ∧ Stored F (clean true m memory).2 (again ++ u) := by
  have hqueue : Stored F m.file.close (again ++ u) := by
    cases hfile : m.file with
    | closed d =>
        rw [hfile] at hr
        obtain ⟨rfl, rfl, hd⟩ := hr
        exact hd
    | opened f =>
        rw [hfile] at hr
        exact close_stored hr
  unfold clean
  cases hev : m.events with
  | nil => exact ⟨hm, hqueue⟩
  | cons e es => exact ⟨close_stored (rep_writes (open_rep hm) (e :: es)), hqueue⟩

/-- **A restart**: memory, then what the queue file gives when it is opened again. -/
theorem restart_spec (max : Nat) (hr : m.file.Rep again u)
    {memory : D} (hm : Stored F memory []) :
    (restart max m memory).1.Sound ∧ (restart max m memory).1.Full max ∧
      (restart max m memory).1.pos = 0 ∧
      (∃ again' u', (restart max m memory).1.file.Rep again' u' ∧
        m.events ++ (again ++ u) = (restart max m memory).1.events ++ u') ∧
      Stored F (restart max m memory).2 [] := by
  obtain ⟨h1, h2⟩ := clean_spec hr hm
  exact new_spec max true h1 h2

/-- What is delivered after a restart, whether it is what it should be or not. -/
theorem drain_restart {max : Nat} (hmax : 1 ≤ max) (n : Nat)
    (hr : m.file.Rep again u) {memory : D} (hm : Stored F memory []) :
    drain max n (restart max m memory).1 = (m.events ++ (again ++ u)).take n := by
  obtain ⟨hs, hf, hp, ⟨again', u', hr', he⟩, -⟩ := restart_spec max hr hm
  rw [drain_eq hmax n hs hf hp hr', he]

end Generic

/-! ## Over persistent files -/

section Persistent

abbrev Restarted (α : Type) [Codec α] := Life (PersistentFile α) α (StoredFile α)

variable {α : Type} [Codec α]

/-- `_file` is null, or nothing was read of it since it was opened. -/
def Queue.notRead : Queue (PersistentFile α) (StoredFile α) → Bool
  | .closed _ => true
  | .opened f => f.notRead

theorem Queue.notRead_iff {q : Queue (PersistentFile α) (StoredFile α)} {again u : List α}
    (hq : q.Rep again u) : q.notRead = true ↔ again = [] := by
  cases q with
  | closed d => exact ⟨fun _ => hq.1, fun _ => rfl⟩
  | opened f =>
      have := PersistentFile.again_nil_iff hq
      rw [this]
      exact Option.isNone_iff_eq_none

/-- Each restart of a run finds the queue file closed, or not read since it was opened. -/
def SafeRestarts (max : Nat) (accepts : α → Bool) : Restarted α → List (LifeOp α) → Prop
  | _, [] => True
  | l, .call op :: ops => SafeRestarts max accepts (l.step max accepts (.call op)) ops
  | l, .restart :: ops =>
    l.session.muxer.file.notRead = true ∧ SafeRestarts max accepts (l.step max accepts .restart) ops

/-- A muxer tracks its queue, and its memory file is empty. -/
structure Lives (max : Nat) (l : Restarted α) : Prop where
  tracks : Tracks max l.session
  memory : Stored (PersistentFile α) l.memory []

theorem lives_start (max : Nat) {memory queue : StoredFile α} {ms qs : List α}
    (hm : PersistentFile.Stored memory.fs ms) (hq : PersistentFile.Stored queue.fs qs) :
    Lives max (Life.start max memory queue (ms ++ qs) : Restarted α) := by
  obtain ⟨-, -, -, -, hd⟩ := new_spec (F := PersistentFile α) max true hm hq
  exact ⟨tracks_start max true hm hq, hd⟩

variable {l : Restarted α} {max : Nat}

theorem lives_call (accepts : α → Bool) (h : Lives max l)
    (op : Op α) : Lives max (l.step max accepts (.call op)) :=
  ⟨tracks_step accepts h.tracks op, h.memory⟩

/-- **A restart that finds the queue file as it was opened loses nothing and adds nothing.** -/
theorem lives_restart (accepts : α → Bool) (h : Lives max l)
    (hsafe : l.session.muxer.file.notRead = true) : Lives max (l.step max accepts .restart) := by
  obtain ⟨again, u, hr, hpend⟩ := h.tracks.pending_eq
  obtain rfl : again = [] := (Queue.notRead_iff hr).mp hsafe
  obtain ⟨hs, hf, hp, ⟨again', u', hr', he⟩, hd⟩ := restart_spec max hr h.memory
  refine ⟨⟨hs, hf, ?_, ⟨again', u', hr', ?_⟩, (AckQueue.window_nack _).symm⟩, hd⟩
  · show l.session.queue.acked + (restart max l.session.muxer l.memory).1.pos =
      l.session.queue.acked
    rw [hp, Nat.add_zero]
  · show l.session.queue.nack.pending = _
    rw [AckQueue.pending_nack, hpend]
    exact he

theorem lives_run (accepts : α → Bool) (h : Lives max l)
    (ops : List (LifeOp α)) (hsafe : SafeRestarts max accepts l ops) :
    Lives max (l.run max accepts ops) := by
  induction ops generalizing l with
  | nil => exact h
  | cons op ops ih =>
    cases op with
    | call op => exact ih (lives_call accepts h op) hsafe
    | restart => exact ih (lives_restart accepts h hsafe.1) hsafe.2

/-- A restart here delivers what is not acknowledged, each event once and in order. -/
def RestartsExactly (max : Nat) (l : Restarted α) : Prop :=
  ∀ n, l.session.queue.pending.length ≤ n →
    drain max n (restart max l.session.muxer l.memory).1 = l.session.queue.pending

theorem restartsExactly_iff (hmax : 1 ≤ max) (h : Lives max l) :
    RestartsExactly max l ↔ l.session.muxer.file.notRead = true := by
  obtain ⟨again, u, hr, hpend⟩ := h.tracks.pending_eq
  have hdrain : ∀ n, drain max n (restart max l.session.muxer l.memory).1 =
      (l.session.muxer.events ++ (again ++ u)).take n :=
    fun n => drain_restart hmax n hr h.memory
  rw [Queue.notRead_iff hr]
  constructor
  · intro hex
    -- one more read than there are events to deliver finds one that was delivered
    have h1 := hex (l.session.queue.pending.length + again.length) (Nat.le_add_right _ _)
    have hlen := congrArg List.length h1
    rw [hdrain, hpend, List.length_take] at hlen
    simp only [List.length_append] at hlen
    exact List.eq_nil_of_length_eq_zero (by omega)
  · rintro rfl n hn
    rw [hdrain, hpend] at *
    exact List.take_of_length_le hn

/--
**Restarting a muxer is exact when its queue file was not read**, and only then.
The runs are those in which this held at each restart so far.
-/
theorem restart_exactly {max : Nat} (hmax : 1 ≤ max) (accepts : α → Bool)
    {memory queue : StoredFile α} {ms qs : List α} (hm : PersistentFile.Stored memory.fs ms)
    (hq : PersistentFile.Stored queue.fs qs) (ops : List (LifeOp α))
    (hsafe : SafeRestarts max accepts (Life.start max memory queue (ms ++ qs)) ops) :
    let l : Restarted α := (Life.start max memory queue (ms ++ qs)).run max accepts ops
    Tracks max l.session ∧ (RestartsExactly max l ↔ l.session.muxer.file.notRead = true) := by
  intro l
  have h : Lives max l := lives_run accepts (lives_start max hm hq) ops hsafe
  exact ⟨h.tracks, restartsExactly_iff hmax h⟩

/-- Memory that is not full means that there is no queue file. -/
theorem closed_of_room (h : Lives max l)
    (hroom : l.session.queue.pending.length < max) :
    ∃ d, l.session.muxer.file = .closed d ∧ Stored (PersistentFile α) d [] ∧
      l.session.muxer.events = l.session.queue.pending := by
  obtain ⟨again, u, hr, hpend⟩ := h.tracks.pending_eq
  cases hfile : l.session.muxer.file with
  | closed d =>
      rw [hfile] at hr
      obtain ⟨-, rfl, hd⟩ := hr
      exact ⟨d, rfl, hd, by rw [hpend, List.append_nil]⟩
  | opened f =>
      have := h.tracks.full f hfile
      rw [hpend, List.length_append] at hroom
      omega

end Persistent

/-! ## A queue file that is read in part -/

@[reducible] def noCompression : Compression.Zlib := ⟨fun b => b, fun b => b⟩

/-- Events of one byte, that nothing is done to. -/
instance byteCodec : Codec UInt8 where
  toZlib := noCompression
  serialize a := [a]
  unserialize := List.head?
  packs a :=
    letI := noCompression
    { ne_nil := List.cons_ne_nil a []
      length_le := by simp [Compression.max_data_size]
      compress_pos := Nat.one_pos
      compress_le := show 1 ≤ Compression.max_data_size by decide
      uncompress := rfl }
  unserialize_serialize _ := rfl

/-- A disk with no file on it. -/
theorem stored_empty : PersistentFile.Stored FileSystem.empty ([] : List UInt8) :=
  ⟨0, [], ⟨FileSystem.Lawful.empty, trivial, fun k _ => FileSystem.find_empty k,
    fun _ hi => (List.not_mem_nil hi).elim⟩, fun _ hi => (List.not_mem_nil hi).elim, rfl⟩

def noFile : StoredFile UInt8 := ⟨FileSystem.empty, [], stored_empty⟩

theorem lives_noFile (max : Nat) : Lives max (Life.start max noFile noFile [] : Restarted UInt8) :=
  @lives_start _ _ max noFile noFile [] [] stored_empty stored_empty

theorem restart_exactly_memory :
    let l : Restarted UInt8 := (Life.start 2 noFile noFile []).run 2 (fun _ => true)
      [.call (.publish (some 1)), .restart]
    Tracks 2 l.session ∧ (RestartsExactly 2 l ↔ l.session.muxer.file.notRead = true) := by
  have h := lives_call (fun _ => true) (lives_noFile 2) (.publish (some 1))
  obtain ⟨d, hd, -⟩ := closed_of_room h (by decide)
  have hsafe : SafeRestarts 2 (fun _ => true) (Life.start 2 noFile noFile [] : Restarted UInt8)
      [.call (.publish (some 1)), .restart] := ⟨by rw [hd]; rfl, trivial⟩
  exact @restart_exactly _ _ 2 (by decide) (fun _ => true) noFile noFile [] [] stored_empty
    stored_empty _ hsafe

/-- Five calls to a muxer with room for one event, that has none: the last one reads the file. -/
theorem run_five_calls {d : StoredFile UInt8} {l : Restarted UInt8}
    (hl : l.session.muxer = ⟨[], 0, 0, .closed d⟩) :
    let l' := l.run 1 (fun _ => true)
      [.call (.publish (some 1)), .call (.publish (some 2)), .call (.publish (some 3)),
        .call (.read false), .call (.ackEvents 1)]
    l'.session.muxer = fillMemory 1 ⟨[], 0, 0, .opened (QueueFile.write (QueueFile.write
      (QueueFile.openFile d : PersistentFile UInt8) 2) 3)⟩ ∧
    l'.session.queue = (((l.session.queue.publish 1).publish 2).publish 3).deliver.ack 1 ∧
    l'.memory = l.memory := by
  obtain ⟨⟨m, q, delivered⟩, memory⟩ := l
  cases hl
  exact ⟨rfl, rfl, rfl⟩

/--
With room for one event, the second and the third go to the queue file, and the
acknowledgement of the first brings the second back to memory. The restart writes
it to the memory file, and reads it from there, then from the queue file.
-/
theorem not_restartsExactly_partlyRead :
    let l : Restarted UInt8 := (Life.start 1 noFile noFile []).run 1 (fun _ => true)
      [.call (.publish (some 1)), .call (.publish (some 2)), .call (.publish (some 3)),
        .call (.read false), .call (.ackEvents 1)]
    l.session.queue.pending = [2, 3] ∧
      drain 1 3 (restart 1 l.session.muxer l.memory).1 = [2, 2, 3] ∧ ¬ RestartsExactly 1 l := by
  intro l
  have h₀ := lives_noFile 1
  obtain ⟨d, hd, hst, hev⟩ := closed_of_room h₀ (by decide)
  have hm₀ : (Life.start 1 noFile noFile [] : Restarted UInt8).session.muxer =
      ⟨[], 0, 0, .closed d⟩ := by
    have hs := h₀.tracks.sound
    generalize (Life.start 1 noFile noFile [] : Restarted UInt8).session.muxer = m at *
    obtain ⟨events, events_size, pos, file⟩ := m
    obtain rfl : events = [] := hev
    obtain rfl : file = .closed d := hd
    obtain rfl : events_size = 0 := hs.size_eq
    obtain rfl : pos = 0 := Nat.le_zero.mp hs.pos_le
    rfl
  obtain ⟨hm, hq, hmem⟩ := run_five_calls hm₀
  -- the second event is read of the file, which has the third one left
  obtain ⟨f, hf, hrep⟩ : ∃ f : PersistentFile UInt8, LawfulQueueFile.Rep f [2] [3] ∧
      l.session.muxer = ⟨[2], 1, 0, .opened f⟩ := by
    have hrep₀ := write_rep 3 (write_rep 2 (open_rep hst))
    rw [hm]
    generalize QueueFile.write (QueueFile.write (QueueFile.openFile d : PersistentFile UInt8) 2) 3
      = f₀ at hrep₀ ⊢
    cases hread : (QueueFile.read f₀ : Except (StoredFile UInt8) (UInt8 × PersistentFile UInt8))
      with
    | error d' => cases (read_shutdown hrep₀ hread).1
    | ok r =>
        obtain ⟨a, f⟩ := r
        obtain ⟨again, u, hu, hag, hf⟩ := PersistentFile.rep_read hrep₀ hread
        obtain rfl : again = [] := hag.elim id id
        obtain ⟨rfl, rfl⟩ := List.cons.inj hu
        have hget : getEventFromFile (.opened f₀ : Queue _ (StoredFile UInt8)) =
            (some 2, .opened f) := by
          rw [getEventFromFile, hread]
        refine ⟨f, hf, ?_⟩
        rw [fillMemory, if_pos Nat.one_pos, hget]
        show fillMemory 1 (⟨[2], 1, 0, .opened f⟩ : Muxer (PersistentFile UInt8) UInt8 _) = _
        rw [fillMemory, if_neg (Nat.lt_irrefl 1)]
  have hpend : l.session.queue.pending = [2, 3] := by
    rw [hq]
    rfl
  have hdrain : drain 1 3 (restart 1 l.session.muxer l.memory).1 = [2, 2, 3] := by
    have hr : l.session.muxer.file.Rep [2] [3] := by rw [hrep]; exact hf
    rw [drain_restart (Nat.le_refl 1) 3 hr (hmem ▸ h₀.memory), hrep]
    rfl
  refine ⟨hpend, hdrain, fun hex => ?_⟩
  have := hex 3 (by rw [hpend]; decide)
  rw [hdrain, hpend] at this
  cases this

end CentreonBroker.Multiplexing
