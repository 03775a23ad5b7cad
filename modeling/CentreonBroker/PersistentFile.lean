import CentreonBroker.Compression.Stream
import CentreonBroker.Multiplexing.MuxerSpec

/-!
# The file of a muxer

A `persistent_file` is a splitted file under a compression layer under a BBDO
layer. One event is one buffer and one write, so that no event is on two parts:
`Rep` says so, and which events of the first part were given already. They are
what the file gives again when it is closed and opened.
-/

namespace CentreonBroker

open Bytes File Compression

/--
The BBDO layer of a `persistent_file`, and `zlib`: the buffer an event is written
as, and the event that is read of one, if there is one.
-/
class Codec (α : Type) extends Zlib where
  serialize : α → Bytes
  unserialize : Bytes → Option α
  packs : ∀ a, Packs (serialize a)
  unserialize_serialize : ∀ a, unserialize (serialize a) = some a

namespace PersistentFile

variable {α : Type} [Codec α]

/-! ## Its operations -/

/-- The constructor. `file::opener` asks for parts of 100 MB, that are removed once read. -/
def openStream (fs : FileSystem Nat) : Stream :=
  let (s, fs) := start id 100000000 true (partIds fs) fs
  { splitter := s, fs := fs, rbuffer := [], shutdown := false }

/-- `write`, which may throw. -/
def writeStream (c : Stream) (a : α) : Option Stream := c.write (Codec.serialize a)

/-- `read`, as often as it gives no event. -/
def readStream (c : Stream) : Result α × Stream :=
  match _h : c.read with
  | (.data b, c') =>
    match Codec.unserialize b with
    | some a => (.data a, c')
    | none => readStream c'
  | (.null, c') => (.null, c')
  | (.shutdown, c') => (.shutdown, c')
termination_by c.left
decreasing_by exact Stream.left_read _h

variable {c : Stream}

theorem left_readStream {c' : Stream} {a : α} (hr : readStream c = (.data a, c')) :
    c'.left < c.left := by
  induction hn : c.left using Nat.strongRecOn generalizing c with
  | ind n ih =>
    subst hn
    rw [readStream] at hr
    split at hr
    · rename_i b c₁ hb
      have hlt := Stream.left_read hb
      split at hr
      · cases hr; exact hlt
      · exact Nat.lt_trans (ih _ hlt hr rfl) hlt
    · cases hr
    · cases hr

/-! ## The events in its bytes -/

/-- An event as it is on the disk. -/
def eventFrame (a : α) : Bytes := frame (Codec.serialize a)

def frames (l : List α) : Bytes := l.flatMap eventFrame

@[simp] theorem frames_append (l l' : List α) : frames (l ++ l') = frames l ++ frames l' :=
  List.flatMap_append

theorem frames_singleton (a : α) : frames [a] = eventFrame a := List.flatMap_singleton _ _

theorem frames_cons (a : α) (l : List α) : frames (a :: l) = eventFrame a ++ frames l := rfl

theorem length_eventFrame (a : α) : 4 < (eventFrame a).length := by
  have h := Codec.packs a
  have hpos := h.compress_pos
  rw [eventFrame, h.length_frame]
  omega

theorem frames_eq_nil {l : List α} : frames l = [] ↔ l = [] := by
  constructor
  · intro h
    cases l with
    | nil => rfl
    | cons a l =>
      have hlen := congrArg List.length h
      have := length_eventFrame a
      rw [frames_cons, List.length_append, List.length_nil] at hlen
      omega
  · rintro rfl
    rfl

/-- **Two events that begin the same bytes are the same.** -/
theorem eventFrame_append_inj {a b : α} {x y : Bytes}
    (h : eventFrame a ++ x = eventFrame b ++ y) : a = b ∧ x = y := by
  have ha := Codec.packs a
  have hb := Codec.packs b
  have hsize : (Zlib.compress (Codec.serialize a)).length =
      (Zlib.compress (Codec.serialize b)).length := by
    rw [← ha.ntohl_frame x, ← hb.ntohl_frame y]
    exact congrArg (fun l => (ntohl l).toNat) h
  have hlen : (eventFrame a).length = (eventFrame b).length := by
    rw [eventFrame, eventFrame, ha.length_frame, hb.length_frame, hsize]
  obtain ⟨hframe, hx⟩ := List.append_inj h hlen
  refine ⟨?_, hx⟩
  have hz : Zlib.compress (Codec.serialize a) = Zlib.compress (Codec.serialize b) := by
    rw [eventFrame, eventFrame, frame, frame, hsize] at hframe
    exact List.append_cancel_left hframe
  have hs : Codec.serialize a = Codec.serialize b := by
    rw [← ha.uncompress, hz, hb.uncompress]
  have := congrArg (Codec.unserialize : Bytes → Option α) hs
  rw [Codec.unserialize_serialize, Codec.unserialize_serialize] at this
  exact Option.some.inj this

variable {again : List α}

/-- What follows some events in a sequence of events is a sequence of events. -/
theorem frames_cancel {l : List α} {x : Bytes} (h : frames l = frames again ++ x) :
    ∃ rest : List α, x = frames rest := by
  induction again generalizing l with
  | nil => exact ⟨l, h.symm⟩
  | cons a again ih =>
    cases l with
    | nil =>
      have hlen := congrArg List.length h
      have := length_eventFrame a
      rw [frames_cons, List.length_append, List.length_append] at hlen
      simp only [frames, List.flatMap_nil, List.length_nil] at hlen
      omega
    | cons b l =>
      rw [frames_cons, frames_cons, List.append_assoc] at h
      exact ih (eventFrame_append_inj h).2

/-! ## What a file has -/

/-- A closed file that has the events of `l`, each in one part. -/
def Stored (fs : FileSystem Nat) (l : List α) : Prop :=
  ∃ lo is, Parts fs lo is ∧ (∀ i ∈ is, ∃ p : List α, body fs i = frames p) ∧
    is.flatMap (body fs) = frames l

/-- An open file that has `u` left to give, and gave `again` of the part it is reading. -/
def Rep (c : Stream) (again u : List α) : Prop :=
  ∃ h later, Kept c.splitter c.fs h later ∧ c.shutdown = false ∧
    (∀ i ∈ h :: later, ∃ p : List α, body c.fs i = frames p) ∧
    body c.fs h = frames again ++ c.ahead h ∧
    c.ahead h ++ later.flatMap (body c.fs) = frames u ∧
    (again = [] → c.splitter.rfile = none)

theorem rep_openStream {fs : FileSystem Nat} {l : List α} (hl : Stored fs l) :
    Rep (openStream fs) [] l := by
  obtain ⟨lo, is, P, hp, hl⟩ := hl
  obtain ⟨s, fs', h, later, hstart, K, hr, hun, hbody⟩ := start_kept P 100000000
  have hpos : s.position = partHeaderSize := by rw [Splitter.position, hr]; rfl
  have hopen : openStream fs = { splitter := s, fs := fs', rbuffer := [], shutdown := false } := by
    rw [openStream, hstart]
  have hahead : (openStream fs).ahead h = body fs' h := by
    rw [hopen, Stream.ahead, hpos]
    rfl
  refine ⟨h, later, ?_, ?_, ?_, ?_, ?_, fun _ => by rw [hopen]; exact hr⟩
  · rw [hopen]; exact K
  · rw [hopen]
  · rw [hopen]
    intro i hi
    rcases hbody i hi with he | ⟨j, hj, he⟩
    · exact ⟨[], he⟩
    · rw [he]; exact hp j hj
  · rw [hahead, hopen]; rfl
  · rw [hahead, hopen, ← hl, ← hun, unread, hpos]
    rfl

variable {u : List α}

/-- **Closing**: what was given of the part being read is to be given again. -/
theorem stored_of_rep (hr : Rep c again u) :
    Stored c.fs (again ++ u) := by
  obtain ⟨h, later, K, -, hp, hhead, hu, -⟩ := hr
  refine ⟨_, _, K.close, hp, ?_⟩
  rw [List.flatMap_cons, hhead, List.append_assoc, hu, frames_append]

/-- Some of the first part was given, as soon as it is open. -/
theorem again_nil_iff (hr : Rep c again u) :
    again = [] ↔ c.splitter.rfile = none := by
  obtain ⟨h, later, -, -, -, hhead, -, hnil⟩ := hr
  refine ⟨hnil, fun hopen => frames_eq_nil.mp (List.eq_nil_of_length_eq_zero ?_)⟩
  have hlen := congrArg List.length hhead
  have hpos : c.splitter.position = partHeaderSize := by
    rw [Splitter.position, hopen]
    rfl
  rw [Stream.ahead, hpos, body, List.length_append, List.length_append] at hlen
  omega

theorem rep_writeStream (hr : Rep c again u) (a : α) :
    ∃ c', writeStream c a = some c' ∧ Rep c' again (u ++ [a]) := by
  obtain ⟨h, later, K, hs, hp, hhead, hu, hnil⟩ := hr
  have ha := Codec.packs a
  obtain ⟨s', fs', later', hw, K', hun, hrf, hpos, ⟨x, hx⟩, hbody⟩ :=
    write_kept K (eventFrame a)
  have hle := K.toLayout.position_le
  refine ⟨{ c with splitter := s', fs := fs' }, ?_, ⟨h, later', K', hs, ?_, ?_, ?_, ?_⟩⟩
  · have hw' : File.write id c.splitter c.fs (frame (Codec.serialize a)) = (s', fs') := hw
    rw [writeStream, Stream.write, hs, if_neg Bool.false_ne_true,
      if_neg (Nat.not_lt.mpr ha.length_le), if_neg ha.ne_nil, hw']
  · refine hbody (fun b => ∃ p : List α, b = frames p) ⟨[], rfl⟩ ?_ hp
    rintro b ⟨p, rfl⟩
    exact ⟨p ++ [a], by rw [frames_append, frames_singleton]⟩
  · have hsize := K.sizes h List.mem_cons_self
    show body fs' h = frames again ++ (c.rbuffer ++ (fs'.content h).drop s'.position)
    rw [body, hx, hpos, List.drop_append_of_le_length hsize, List.drop_append_of_le_length hle,
      ← List.append_assoc, ← List.append_assoc, List.append_assoc (frames again), ← body]
    exact congrArg (· ++ x) hhead
  · show c.rbuffer ++ (fs'.content h).drop s'.position ++ later'.flatMap (body fs') = _
    have hun' : (fs'.content h).drop s'.position ++ later'.flatMap (body fs') = _ := hun
    rw [List.append_assoc, hun', unread, frames_append, frames_singleton, ← hu, Stream.ahead]
    simp only [List.append_assoc]
  · exact fun ha => hrf.trans (hnil ha)

/-- The next event is in the part being read: what it gives again grows by it. -/
theorem readStream_event {h : Nat} {later : List Nat}
    (K : Kept c.splitter c.fs h later) (hs : c.shutdown = false)
    (hp : ∀ i ∈ h :: later, ∃ p : List α, body c.fs i = frames p)
    (hhead : body c.fs h = frames again ++ c.ahead h)
    (hu : c.ahead h ++ later.flatMap (body c.fs) = frames u) (hc : c.ahead h ≠ []) :
    ∃ a u' c', u = a :: u' ∧ readStream c = (.data a, c') ∧ Rep c' (again ++ [a]) u' := by
  obtain ⟨p, hbody⟩ := hp h List.mem_cons_self
  obtain ⟨rest, hrest⟩ := frames_cancel (hbody.symm.trans hhead)
  cases rest with
  | nil => exact absurd hrest hc
  | cons a rest =>
    rw [frames_cons] at hrest
    obtain ⟨c', hread, K', hfs, hs', hahead⟩ := Stream.read_frame K (Codec.packs a) hrest
    rw [hrest, List.append_assoc] at hu
    cases u with
    | nil =>
      have hlen := congrArg List.length hu
      have := length_eventFrame a
      rw [List.length_append] at hlen
      simp only [frames, List.flatMap_nil, List.length_nil] at hlen
      omega
    | cons b u' =>
      rw [frames_cons] at hu
      obtain ⟨rfl, hu'⟩ := eventFrame_append_inj hu
      refine ⟨a, u', c', rfl, ?_, h, later, K', hs'.trans hs, ?_, ?_, ?_, ?_⟩
      · rw [readStream, hread]
        dsimp only
        rw [Codec.unserialize_serialize]
      · rw [hfs]; exact hp
      · rw [hfs, hhead, hahead, hrest, frames_append, frames_singleton, List.append_assoc]
      · rw [hahead, hfs]; exact hu'
      · exact fun ha => absurd ha (List.append_ne_nil_of_right_ne_nil again (List.cons_ne_nil a []))

/-- **A read gives the next event, or there is none and nothing is left on the disk.** -/
theorem rep_readStream (hr : Rep c again u) :
    (u = [] ∧ ∃ c', readStream c = ((.shutdown : Result α), c') ∧ Stored c'.fs ([] : List α)) ∨
    ∃ a u' again' c', u = a :: u' ∧ readStream c = (.data a, c') ∧
      (again' = again ∨ again' = []) ∧ Rep c' (again' ++ [a]) u' := by
  obtain ⟨h, later, K, hs, hp, hhead, hu, -⟩ := hr
  induction later generalizing c h again with
  | nil =>
    by_cases hc : c.ahead h = []
    · have hnil : u = [] := frames_eq_nil.mp (by rw [← hu, hc]; rfl)
      obtain ⟨c', hread, P⟩ := Stream.read_shutdown K hc
      refine Or.inl ⟨hnil, c', ?_, 0, [], P, fun i hi => (List.not_mem_nil hi).elim, rfl⟩
      rw [readStream, hread]
    · obtain ⟨a, u', c', h1, h2, h3⟩ := readStream_event K hs hp hhead hu hc
      exact Or.inr ⟨a, u', again, c', h1, h2, Or.inl rfl, h3⟩
  | cons i later ih =>
    by_cases hc : c.ahead h = []
    · obtain ⟨c', hread, K', hs', hahead, hbody⟩ := Stream.read_next K hc
      have hsame : (readStream c : Result α × Stream) = readStream c' := by
        rw [readStream, hread]
        conv_rhs => rw [readStream]
      have hhead' : body c'.fs i = frames ([] : List α) ++ c'.ahead i := by
        rw [hahead, hbody]
        rfl
      rw [hsame]
      have hp' : ∀ j ∈ i :: later, ∃ p : List α, body c'.fs j = frames p := by
        rw [hbody]
        exact fun j hj => hp j (List.mem_cons_of_mem h hj)
      have hu' : c'.ahead i ++ later.flatMap (body c'.fs) = frames u := by
        rw [hahead, hbody, ← hu, hc]
        rfl
      rcases ih i K' (hs'.trans hs) hp' hhead' hu' with hshut | ⟨a, u', again', c₂, h1, h2, h3, h4⟩
      · exact Or.inl hshut
      · exact Or.inr ⟨a, u', again', c₂, h1, h2, Or.inr (h3.elim id id), h4⟩
    · obtain ⟨a, u', c', h1, h2, h3⟩ := readStream_event K hs hp hhead hu hc
      exact Or.inr ⟨a, u', again, c', h1, h2, Or.inl rfl, h3⟩

end PersistentFile

/-! ## As a muxer uses it -/

/-- A closed file: the disk has some events, and nothing else. -/
structure StoredFile (α : Type) [Codec α] where
  fs : FileSystem Nat
  stored : ∃ l : List α, PersistentFile.Stored fs l

/-- An open file, in a state that operations on a closed one lead to. -/
structure PersistentFile (α : Type) [Codec α] where
  stream : Stream
  rep : ∃ again u : List α, PersistentFile.Rep stream again u

namespace PersistentFile

variable {α : Type} [Codec α]

/-- Nothing was read of the file since it was opened. -/
def notRead (f : PersistentFile α) : Bool := f.stream.splitter.rfile.isNone

theorem isSome_writeStream (f : PersistentFile α) (a : α) :
    (writeStream f.stream a).isSome = true := by
  obtain ⟨again, u, hr⟩ := f.rep
  obtain ⟨c', hw, -⟩ := rep_writeStream hr a
  rw [hw]
  rfl

def write (f : PersistentFile α) (a : α) : PersistentFile α where
  stream := (writeStream f.stream a).get (isSome_writeStream f a)
  rep := by
    obtain ⟨again, u, hr⟩ := f.rep
    obtain ⟨c', hw, hr'⟩ := rep_writeStream hr a
    refine ⟨again, u ++ [a], ?_⟩
    simp only [hw, Option.get_some]
    exact hr'

/-- An event, or the shutdown. In between is a part that is missing, and none is. -/
def read (f : PersistentFile α) : Except (StoredFile α) (α × PersistentFile α) :=
  match h : readStream f.stream with
  | (.data a, c) =>
    .ok (a, ⟨c, by
      obtain ⟨again, u, hr⟩ := f.rep
      rcases rep_readStream hr with ⟨-, c', he, -⟩ | ⟨b, u', again', c', -, he, -, hr'⟩
      · cases h.symm.trans he
      · cases h.symm.trans he; exact ⟨_, _, hr'⟩⟩)
  | (.shutdown, c) =>
    .error ⟨c.fs, by
      obtain ⟨again, u, hr⟩ := f.rep
      rcases rep_readStream hr with ⟨-, c', he, hs⟩ | ⟨b, u', again', c', -, he, -, -⟩
      · cases h.symm.trans he; exact ⟨[], hs⟩
      · cases h.symm.trans he⟩
  | (.null, c) => absurd h (by
      obtain ⟨again, u, hr⟩ := f.rep
      rcases rep_readStream hr with ⟨-, c', he, -⟩ | ⟨b, u', again', c', -, he, -, -⟩ <;>
        rw [he] <;> simp)

variable {f : PersistentFile α}

theorem stream_of_read_ok {f' : PersistentFile α} {a : α} (h : f.read = .ok (a, f')) :
    readStream f.stream = (.data a, f'.stream) := by
  unfold read at h
  split at h
  · rename_i b c hb; cases h; exact hb
  · cases h
  · rename_i c hb
    obtain ⟨again, u, hr⟩ := f.rep
    rcases rep_readStream hr with ⟨-, c', he, -⟩ | ⟨b, u', again', c', -, he, -, -⟩ <;>
      cases hb.symm.trans he

instance queueFile : Multiplexing.QueueFile (PersistentFile α) α (StoredFile α) where
  openFile d :=
    ⟨openStream d.fs, by obtain ⟨l, hl⟩ := d.stored; exact ⟨[], l, rep_openStream hl⟩⟩
  write := write
  read := read
  close f := ⟨f.stream.fs, by obtain ⟨again, u, hr⟩ := f.rep; exact ⟨_, stored_of_rep hr⟩⟩
  left f := f.stream.left
  read_lt h := left_readStream (stream_of_read_ok h)

theorem fs_of_read_error {d : StoredFile α} (h : f.read = .error d) :
    ∃ c, readStream f.stream = ((.shutdown : Result α), c) ∧ c.fs = d.fs := by
  unfold read at h
  split at h
  · cases h
  · rename_i c hb; cases h; exact ⟨c, hb, rfl⟩
  · rename_i c hb
    obtain ⟨again, u, hr⟩ := f.rep
    rcases rep_readStream hr with ⟨-, c', he, -⟩ | ⟨b, u', again', c', -, he, -, -⟩ <;>
      cases hb.symm.trans he

theorem rep_read {f' : PersistentFile α} {again u : List α} {a : α} (hr : Rep f.stream again u)
    (h : f.read = .ok (a, f')) :
    ∃ again' u', u = a :: u' ∧ (again' = again ∨ again' = []) ∧
      Rep f'.stream (again' ++ [a]) u' := by
  have hs := stream_of_read_ok h
  rcases rep_readStream hr with ⟨-, c', he, -⟩ | ⟨b, u', again', c', rfl, he, hag, hr'⟩
  · cases hs.symm.trans he
  · cases hs.symm.trans he; exact ⟨again', u', rfl, hag, hr'⟩

/-- **A persistent file gives what was written to it, in order**, but for the part it was reading. -/
instance lawfulQueueFile : Multiplexing.LawfulQueueFile (PersistentFile α) where
  Rep f again u := Rep f.stream again u
  Stored d l := Stored d.fs l
  open_rep hl := rep_openStream hl
  write_rep a hr := by
    obtain ⟨c', hw, hr'⟩ := rep_writeStream hr a
    simp only [Multiplexing.QueueFile.write, write, hw, Option.get_some]
    exact hr'
  read_rep hr h := by
    obtain ⟨again', u', hu, -, hr'⟩ := rep_read hr h
    exact ⟨_, u', hu, hr'⟩
  read_shutdown hr h := by
    obtain ⟨c, hs, hfs⟩ := fs_of_read_error h
    rcases rep_readStream hr with ⟨hu, c', he, hst⟩ | ⟨b, u', again', c', -, he, -, -⟩
    · cases hs.symm.trans he; exact ⟨hu, hfs ▸ hst⟩
    · cases hs.symm.trans he
  close_stored hr := stored_of_rep hr

end PersistentFile

end CentreonBroker
