import CentreonBroker.Multiplexing.Muxer

/-!
# What each operation of a muxer does

The events a muxer has not given up are those in memory, then those left in the
file. One lemma for each operation says what it does to the two, and to `_pos`.

What is asked of the file is that it gives in order what was written to it
(`LawfulQueueFile`). It is allowed one weakness: closed and opened again, it may
give once more some of what it gave already. Nothing in this module depends on
what that is, and restarting a muxer does.
-/

namespace CentreonBroker.Multiplexing

/-- A queue file that gives what was written to it, in order. -/
class LawfulQueueFile (F : Type) {α D : outParam Type} [QueueFile F α D] where
  /-- `Rep f again u`: it has `u` left to give; opened again it would give `again` first. -/
  Rep : F → List α → List α → Prop
  /-- What the disk has. -/
  Stored : D → List α → Prop
  open_rep : ∀ {d l}, Stored d l → Rep (QueueFile.openFile d) [] l
  write_rep : ∀ {f again u} (a : α), Rep f again u → Rep (QueueFile.write f a) again (u ++ [a])
  read_rep : ∀ {f again u a f'}, Rep f again u → QueueFile.read f = .ok (a, f') →
    ∃ again' u', u = a :: u' ∧ Rep f' again' u'
  read_shutdown : ∀ {f again u d}, Rep f again u → QueueFile.read f = .error d →
    u = [] ∧ Stored d []
  close_stored : ∀ {f again u}, Rep f again u → Stored (QueueFile.close f) (again ++ u)

open LawfulQueueFile

variable {F α D : Type} [QueueFile F α D] [LawfulQueueFile F]

/-- What a queue file would give again, and what it has left to give. -/
def Queue.Rep : Queue F D → List α → List α → Prop
  | .closed d, again, u => again = [] ∧ u = [] ∧ Stored F d []
  | .opened f, again, u => LawfulQueueFile.Rep f again u

variable {again u : List α} {q : Queue F D}

theorem Queue.rep_toWrite (hq : q.Rep again u) :
    LawfulQueueFile.Rep q.toWrite again u := by
  cases q with
  | closed d =>
      obtain ⟨rfl, rfl, hd⟩ := hq
      exact open_rep hd
  | opened f => exact hq

theorem getEventFromFile_some {q' : Queue F D} {e : α} (hq : q.Rep again u)
    (h : getEventFromFile q = (some e, q')) : ∃ again' u', u = e :: u' ∧ q'.Rep again' u' := by
  cases q with
  | closed d => cases h
  | opened f =>
    unfold getEventFromFile at h
    dsimp only at h
    split at h
    · rename_i hr; cases h; exact read_rep hq hr
    · cases h

/-- No event means that there is none left, and that the file gets closed. -/
theorem getEventFromFile_none {q' : Queue F D} (hq : q.Rep again u)
    (h : getEventFromFile q = (none, q')) : u = [] ∧ ∃ d, q' = .closed d ∧ Stored F d [] := by
  cases q with
  | closed d => cases h; exact ⟨hq.2.1, d, rfl, hq.2.2⟩
  | opened f =>
    unfold getEventFromFile at h
    dsimp only at h
    split at h
    · cases h
    · rename_i d hr
      cases h
      exact ⟨(read_shutdown hq hr).1, d, rfl, (read_shutdown hq hr).2⟩

/-- The counter is that of the list, and `_pos` is in it. -/
structure Muxer.Sound (m : Muxer F α D) : Prop where
  size_eq : m.events_size = m.events.length
  pos_le : m.pos ≤ m.events.length

/-- While there is a file, memory is full. -/
def Muxer.Full (max : Nat) (m : Muxer F α D) : Prop :=
  ∀ f, m.file = .opened f → max ≤ m.events.length

omit [QueueFile F α D] [LawfulQueueFile F] in
/-- A new event in memory does not move `_pos`, which finds it if it was at the end. -/
theorem pos_pushToQueue (m : Muxer F α D) (e : α) : (pushToQueue m e).pos = m.pos := by
  unfold pushToQueue
  dsimp only
  split
  · rename_i hp; rw [hp, List.length_append]; rfl
  · rfl

variable {m : Muxer F α D}

omit [QueueFile F α D] [LawfulQueueFile F] in
theorem sound_pushToQueue (h : m.Sound) (e : α) : (pushToQueue m e).Sound where
  size_eq := by
    show m.events_size + 1 = (m.events ++ [e]).length
    rw [h.size_eq, List.length_append]
    rfl
  pos_le := by
    rw [pos_pushToQueue]
    show m.pos ≤ (m.events ++ [e]).length
    rw [List.length_append]
    exact Nat.le_add_right_of_le h.pos_le

/-- What filling memory does: some events go from the front of the file to the end of memory. -/
structure Filled (max : Nat) (m m' : Muxer F α D) (u : List α) : Prop where
  sound : m'.Sound
  full : m'.Full max
  pos_eq : m'.pos = m.pos
  moved : ∃ l again' u', u = l ++ u' ∧ m'.events = m.events ++ l ∧ m'.file.Rep again' u'

theorem fillMemory_spec (max : Nat) (hs : m.Sound)
    (hq : m.file.Rep again u) : Filled max m (fillMemory max m) u := by
  induction hn : max - m.events_size using Nat.strongRecOn generalizing m again u with
  | ind n ih =>
    rw [fillMemory]
    by_cases hlt : m.events_size < max
    · rw [if_pos hlt]
      split
      · rename_i q' hg
        obtain ⟨rfl, d, rfl, hd⟩ := getEventFromFile_none hq hg
        exact
          { sound := ⟨hs.size_eq, hs.pos_le⟩
            full := fun f hf => by cases hf
            pos_eq := rfl
            moved := ⟨[], [], [], rfl, (List.append_nil _).symm, rfl, rfl, hd⟩ }
      · rename_i e q' hg
        obtain ⟨again', u', rfl, hq'⟩ := getEventFromFile_some hq hg
        have hs' : (pushToQueue { m with file := q' } e).Sound :=
          sound_pushToQueue (m := { m with file := q' }) ⟨hs.size_eq, hs.pos_le⟩ e
        have hp := pos_pushToQueue { m with file := q' } e
        have hf := ih _ (by show max - (m.events_size + 1) < n; omega) hs' hq' rfl
        obtain ⟨l, again₂, u₂, rfl, hev, hq₂⟩ := hf.moved
        refine ⟨hf.sound, hf.full, hf.pos_eq.trans hp, e :: l, again₂, u₂, rfl, ?_, hq₂⟩
        rw [hev]
        show m.events ++ [e] ++ l = m.events ++ e :: l
        rw [List.append_assoc]
        rfl
    · rw [if_neg hlt]
      refine ⟨hs, fun _ _ => ?_, rfl, [], again, u, rfl, (List.append_nil _).symm, hq⟩
      have := hs.size_eq
      omega

omit [QueueFile F α D] [LawfulQueueFile F] in
/-- **Only what was read is removed**, and as much of it as was asked for. -/
theorem removeEvents_spec (count : Nat) : ∀ {m : Muxer F α D}, m.Sound →
    (removeEvents count m).Sound ∧
      (removeEvents count m).events = m.events.drop (min count m.pos) ∧
      (removeEvents count m).pos = m.pos - min count m.pos ∧
      (removeEvents count m).file = m.file := by
  induction count with
  | zero =>
    intro m hs
    rw [Nat.zero_min]
    exact ⟨hs, rfl, rfl, rfl⟩
  | succ count ih =>
    intro m hs
    have hle := hs.pos_le
    have hsz := hs.size_eq
    rw [removeEvents]
    by_cases he : m.events.isEmpty = true
    · have hnil : m.events = [] := List.isEmpty_iff.mp he
      have hp : m.pos = 0 := by
        rw [hnil] at hle
        exact Nat.le_zero.mp hle
      rw [if_pos he, hp, Nat.min_zero]
      exact ⟨hs, rfl, rfl, rfl⟩
    · rw [if_neg he]
      by_cases hp : m.pos = 0
      · rw [if_pos hp, hp, Nat.min_zero]
        exact ⟨hs, rfl, rfl, rfl⟩
      · rw [if_neg hp]
        obtain ⟨h1, h2, h3, h4⟩ := ih (m := { m with
          events := m.events.tail, events_size := m.events_size - 1, pos := m.pos - 1 })
          ⟨by rw [List.length_tail, hsz], by
            show m.pos - 1 ≤ m.events.tail.length
            rw [List.length_tail]
            omega⟩
        have hm : min (count + 1) m.pos = min count (m.pos - 1) + 1 := by omega
        refine ⟨h1, h2.trans ?_, h3.trans ?_, h4⟩
        · show m.events.tail.drop (min count (m.pos - 1)) = _
          rw [hm, List.drop_tail]
        · show m.pos - 1 - min count (m.pos - 1) = _
          omega

theorem readBack_spec {f : F} (h : LawfulQueueFile.Rep f again u) :
    (readBack f).1 = u ∧ Stored F (readBack f).2 [] := by
  induction hn : QueueFile.left f using Nat.strongRecOn generalizing f again u with
  | ind n ih =>
    rw [readBack]
    split
    · rename_i e f' hr
      obtain ⟨again', u', rfl, h'⟩ := read_rep h hr
      obtain ⟨h1, h2⟩ := ih _ (hn ▸ QueueFile.read_lt hr) h' rfl
      exact ⟨congrArg (e :: ·) h1, h2⟩
    · rename_i d hr
      obtain ⟨rfl, hd⟩ := read_shutdown h hr
      exact ⟨rfl, hd⟩

theorem loadQueue_spec (max : Nat) (hs : m.Sound)
    (hq : m.file.Rep again u) : Filled max m (loadQueue max m) u := by
  induction hn : m.file.left using Nat.strongRecOn generalizing m again u with
  | ind n ih =>
    rw [loadQueue]
    split
    · rename_i q' hg
      obtain ⟨rfl, d, rfl, hd⟩ := getEventFromFile_none hq hg
      exact
        { sound := ⟨hs.size_eq, hs.pos_le⟩
          full := fun f hf => by cases hf
          pos_eq := rfl
          moved := ⟨[], [], [], rfl, (List.append_nil _).symm, rfl, rfl, hd⟩ }
    · rename_i e q' hg
      obtain ⟨again', u', rfl, hq'⟩ := getEventFromFile_some hq hg
      have hlen : (m.events ++ [e]).length = m.events.length + 1 := List.length_append
      have hs' : Muxer.Sound (⟨m.events ++ [e], m.events_size + 1, m.pos, q'⟩ : Muxer F α D) :=
        ⟨by rw [hlen, ← hs.size_eq], by rw [hlen]; exact Nat.le_succ_of_le hs.pos_le⟩
      dsimp only
      split
      · have hf := ih _ (hn ▸ getEventFromFile_lt hg) hs' hq' rfl
        obtain ⟨l, again₂, u₂, rfl, hev, hq₂⟩ := hf.moved
        refine ⟨hf.sound, hf.full, hf.pos_eq, e :: l, again₂, u₂, rfl, ?_, hq₂⟩
        rw [hev, List.append_assoc]
        rfl
      · rename_i hge
        refine ⟨hs', fun _ _ => ?_, rfl, [e], again', u', rfl, rfl, hq'⟩
        have := hs'.size_eq
        dsimp only at this ⊢
        omega

/-- **A new muxer has all that was stored**: the memory file first, if it is asked for. -/
theorem new_spec (max : Nat) (persistent : Bool) {memory queue : D} {ms qs : List α}
    (hm : Stored F memory ms) (hq : Stored F queue qs) :
    let m := (new max persistent memory queue : Muxer F α D × D).1
    m.Sound ∧ m.Full max ∧ m.pos = 0 ∧
      (∃ again u, m.file.Rep again u ∧
        (if persistent then ms else []) ++ qs = m.events ++ u) ∧
      Stored F (new (F := F) max persistent memory queue).2 (if persistent then [] else ms) := by
  intro m
  obtain ⟨head, memory', hh, hev, hd⟩ : ∃ head memory',
      (if persistent then readBack (QueueFile.openFile memory : F) else ([], memory)) =
        (head, memory') ∧ head = (if persistent then ms else []) ∧
        Stored F memory' (if persistent then [] else ms) := by
    cases persistent with
    | false => exact ⟨_, _, rfl, rfl, hm⟩
    | true => exact ⟨_, _, rfl, readBack_spec (open_rep hm)⟩
  have hf := loadQueue_spec max
    (m := ⟨head, head.length, 0, .opened (QueueFile.openFile queue : F)⟩)
    ⟨rfl, Nat.zero_le _⟩ (open_rep hq)
  have hn : (new max persistent memory queue : Muxer F α D × D) =
      ({ loadQueue max ⟨head, head.length, 0, .opened (QueueFile.openFile queue : F)⟩ with
        pos := 0 }, memory') := by
    rw [new, hh]
  obtain ⟨l, again, u, rfl, he, hr⟩ := hf.moved
  have hms : m = _ := congrArg Prod.fst hn
  rw [hn, hms]
  refine ⟨⟨hf.sound.size_eq, Nat.zero_le _⟩, hf.full, rfl, ⟨again, u, hr, ?_⟩, hd⟩
  show _ = (loadQueue _ _).events ++ u
  rw [he, ← hev, List.append_assoc]

end CentreonBroker.Multiplexing
