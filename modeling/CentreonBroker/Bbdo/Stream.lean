import CentreonBroker.Bbdo.Unserialize

/-!
# The reading side of a BBDO stream

`_read_any` looks for the next packet in `_packet`, the bytes received and not
consumed yet, and asks the substream for more through `_read_packet` as long as
there are too few. Three things can stop it in the middle: the substream times
out, the substream is exhausted, or `unserialize` throws. What it has done so
far stays in `_packet`, `_buffer` and `_skipped`, and the next call goes on from
there.

The substream is the list of what its successive `read` calls will give.
-/

namespace CentreonBroker.Bbdo

open Bytes Io

/-- `stream::buffer`: the parts received of an event whose last part is still to come. -/
structure Buffer where
  ids : Ids
  buf : List Bytes
  deriving DecidableEq, Repr

/-- `buffer::matches`. -/
def Buffer.matches (b : Buffer) (i : Ids) : Bool :=
  i.event_id == b.ids.event_id && i.source_id == b.ids.source_id && i.dest_id == b.ids.dest_id

/-- `buffer::push_back`. -/
def Buffer.pushBack (b : Buffer) (v : Bytes) : Buffer := { b with buf := b.buf ++ [v] }

/-- `buffer::to_vector`. -/
def Buffer.toVector (b : Buffer) : Bytes := b.buf.flatten

/-- The members of `bbdo::stream` that its reading side uses. -/
structure Stream where
  /-- `_packet`. -/
  packet : Bytes
  /-- `_buffer`, oldest first. -/
  buffer : List Buffer
  /-- `_skipped`, which only log messages show. -/
  skipped : Nat
  deriving DecidableEq, Repr

/-- A stream that has not read anything. -/
def Stream.init : Stream := ⟨[], [], 0⟩

/--
One `read` of the substream: the bytes of the raw event it gave, none when it
gave a null pointer or something that is not raw, and whether it returned false.
-/
structure Chunk where
  data : Bytes
  timedOut : Bool
  deriving DecidableEq, Repr

/-- What the substream has left to give. After it, `read` throws `exceptions::shutdown`. -/
abbrev Substream := List Chunk

/-- The bytes a substream has left to give. -/
def received (sub : Substream) : Bytes := (sub.map Chunk.data).flatten

/-- How a call to `_read_packet` ends. -/
inductive PacketStatus where
  | filled
  /-- `exceptions::timeout`. -/
  | timeout
  /-- The shutdown of the substream goes through. -/
  | shutdown
  deriving DecidableEq, Repr

/-- `_read_packet`. -/
def readPacket (size : Nat) (s : Stream) : Substream → PacketStatus × Stream × Substream
  | [] => if size ≤ s.packet.length then (.filled, s, []) else (.shutdown, s, [])
  | c :: cs =>
    if size ≤ s.packet.length then (.filled, s, c :: cs)
    else
      let s := { s with packet := s.packet ++ c.data }
      if c.timedOut then (.timeout, s, cs) else readPacket size s cs

/-- The fields of a header, and the checksum it should carry. -/
structure Header where
  chksum : UInt16
  packetSize : Nat
  ids : Ids
  expected : UInt16
  deriving DecidableEq, Repr

/-- The header at the front of `_packet`. -/
def parseHeader (pack : Bytes) : Header where
  chksum := ntohs pack
  packetSize := (ntohs (pack.drop 2)).toNat
  ids := ⟨ntohl (pack.drop 4), ntohl (pack.drop 8), ntohl (pack.drop 12)⟩
  expected := crc16Ccitt ((pack.drop 2).take (headerSize - 2))

/-- The content of the packet at the front of `_packet`, and what `_packet` holds without it. -/
def extract (pack : Bytes) (packetSize : Nat) : Bytes × Bytes :=
  if pack.length = headerSize + packetSize then (pack.drop headerSize, [])
  else ((pack.drop headerSize).take packetSize, pack.drop (headerSize + packetSize))

/-- `while (_buffer.size() > n) _buffer.pop_front()`. -/
def purge {α : Type} (n : Nat) (buffer : List α) : List α := buffer.drop (buffer.length - n)

/-- The content of an event whose last part just came, and the buffers left once it is taken. -/
def joinLast (i : Ids) (content : Bytes) (buffer : List Buffer) : Bytes × List Buffer :=
  match buffer.find? (·.matches i) with
  | some b => ((b.pushBack content).toVector, purge 3 (buffer.eraseP (·.matches i)))
  | none => (content, purge 3 buffer)

/-- The loop that appends a part to the first buffer that matches. -/
def pushFirst (i : Ids) (content : Bytes) : List Buffer → Option (List Buffer)
  | [] => none
  | b :: bs =>
    if b.matches i then some (b.pushBack content :: bs)
    else (pushFirst i content bs).map (b :: ·)

/-- The buffers once a part of `0xffff` bytes is kept. -/
def keepPart (i : Ids) (content : Bytes) (buffer : List Buffer) : List Buffer :=
  purge 4 ((pushFirst i content buffer).getD (buffer ++ [⟨i, [content]⟩]))

/-- How the loop of `_read_any` is left. -/
inductive Outcome where
  /-- The content of an event is complete, and handed to `unserialize`. -/
  | content (ids : Ids) (bytes : Bytes)
  /-- `exceptions::timeout`, which makes the call return false. -/
  | timeout
  /-- `exceptions::shutdown`, thrown by the substream. -/
  | shutdown
  deriving DecidableEq, Repr

/--
What happens to the packet at the front of `_packet` once it is there entirely.
No outcome means the loop goes on.
-/
def takePacket (h : Header) (s : Stream) : Option Outcome × Stream :=
  let (content, packet) := extract s.packet h.packetSize
  if h.packetSize ≠ maxPacketSize then
    let (content, buffer) := joinLast h.ids content s.buffer
    (some (.content h.ids content), { s with packet := packet, buffer := buffer })
  else (none, { s with packet := packet, buffer := keepPart h.ids content s.buffer })

/-- One turn of the loop of `_read_any`. -/
def turn (s : Stream) (sub : Substream) : Option Outcome × Stream × Substream :=
  match readPacket headerSize s sub with
  | (.timeout, s, sub) => (some .timeout, s, sub)
  | (.shutdown, s, sub) => (some .shutdown, s, sub)
  | (.filled, s, sub) =>
    let h := parseHeader s.packet
    if h.expected ≠ h.chksum then
      (none, { s with packet := s.packet.drop 1, skipped := s.skipped + 1 }, sub)
    else
      match readPacket (headerSize + h.packetSize) { s with skipped := 0 } sub with
      | (.timeout, s, sub) => (some .timeout, s, sub)
      | (.shutdown, s, sub) => (some .shutdown, s, sub)
      | (.filled, s, sub) => ((takePacket h s).1, (takePacket h s).2, sub)

/-! ## Bytes are consumed in order -/

/-- All the bytes still to be consumed, received or not. -/
def pending (s : Stream) (sub : Substream) : Bytes := s.packet ++ received sub

theorem length_pending (s : Stream) (sub : Substream) :
    (pending s sub).length = s.packet.length + (received sub).length := by
  rw [pending, List.length_append]

theorem pending_drop_suffix (s : Stream) (sub : Substream) (n : Nat) :
    s.packet.drop n ++ received sub <:+ pending s sub := by
  obtain ⟨t, ht⟩ := List.drop_suffix n s.packet
  exact ⟨t, by rw [← List.append_assoc, ht, pending]⟩

/-- What `_read_packet` guarantees, however it ends. -/
structure ReadPacketSpec (size : Nat) (s : Stream) (sub : Substream) (st : PacketStatus)
    (s' : Stream) (sub' : Substream) : Prop where
  /-- It loses no byte and invents none. -/
  pending_eq : pending s' sub' = pending s sub
  /-- It only touches `_packet`. -/
  buffer_eq : s'.buffer = s.buffer
  skipped_eq : s'.skipped = s.skipped
  /-- When it returns normally there is as much as was asked for. -/
  filled : st = .filled → size ≤ s'.packet.length
  /-- When the substream is exhausted there is not, and nothing more will come. -/
  shutdown : st = .shutdown → s'.packet.length < size ∧ sub' = []
  length_le : sub'.length ≤ sub.length
  /-- Each time out is one read of the substream. -/
  timeout : st = .timeout → sub'.length < sub.length

variable {s s' : Stream} {sub' sub : Substream}

theorem readPacket_spec {size : Nat} {st : PacketStatus}
    (h : readPacket size s sub = (st, s', sub')) :
    ReadPacketSpec size s sub st s' sub' := by
  induction sub generalizing s with
  | nil =>
    rw [readPacket] at h
    split at h <;> cases h
    · rename_i hle
      exact ⟨rfl, rfl, rfl, fun _ => hle, nofun, Nat.le_refl _, nofun⟩
    · rename_i hlt
      exact ⟨rfl, rfl, rfl, nofun, fun _ => ⟨Nat.not_le.mp hlt, rfl⟩, Nat.le_refl _, nofun⟩
  | cons c cs ih =>
    rw [readPacket] at h
    split at h
    · rename_i hle
      cases h
      exact ⟨rfl, rfl, rfl, fun _ => hle, nofun, Nat.le_refl _, nofun⟩
    · dsimp only at h
      have hp : pending { s with packet := s.packet ++ c.data } cs = pending s (c :: cs) := by
        simp [pending, received]
      split at h
      · cases h
        exact ⟨hp, rfl, rfl, nofun, nofun, Nat.le_succ _, fun _ => Nat.lt_succ_self _⟩
      · have hi := ih h
        exact ⟨hi.pending_eq.trans hp, hi.buffer_eq, hi.skipped_eq, hi.filled, hi.shutdown,
          Nat.le_succ_of_le hi.length_le, fun ht => Nat.lt_succ_of_lt (hi.timeout ht)⟩

/-- With enough bytes in front of it `_read_packet` does not look at the substream. -/
theorem readPacket_of_le {size : Nat} (h : size ≤ s.packet.length) (sub : Substream) :
    readPacket size s sub = (.filled, s, sub) := by
  cases sub with
  | nil => rw [readPacket, if_pos h]
  | cons c cs => rw [readPacket, if_pos h]

theorem readPacket_nil_of_lt {size : Nat} (h : s.packet.length < size) :
    readPacket size s [] = (.shutdown, s, []) := by
  rw [readPacket, if_neg (Nat.not_le.mpr h)]

/-- The two branches that take a packet out do the same. -/
theorem extract_eq (pack : Bytes) (n : Nat) :
    extract pack n = ((pack.drop headerSize).take n, pack.drop (headerSize + n)) := by
  rw [extract]
  split
  · rename_i he
    rw [List.take_of_length_le (by rw [List.length_drop]; omega),
      List.drop_of_length_le (Nat.le_of_eq he)]
  · rfl

theorem takePacket_packet (h : Header) (s : Stream) :
    (takePacket h s).2.packet = s.packet.drop (headerSize + h.packetSize) := by
  rw [takePacket, extract_eq]
  dsimp only
  split <;> rfl

/-! ## The four ways of a turn -/

/-- Too few bytes for a header. -/
theorem turn_short (h : s.packet.length < headerSize) :
    turn s [] = (some .shutdown, s, []) := by
  rw [turn, readPacket_nil_of_lt h]

/-- A header that does not check. -/
theorem turn_corrupted (h : headerSize ≤ s.packet.length)
    (hc : (parseHeader s.packet).expected ≠ (parseHeader s.packet).chksum) (sub : Substream) :
    turn s sub =
      (none, { s with packet := s.packet.drop 1, skipped := s.skipped + 1 }, sub) := by
  rw [turn, readPacket_of_le h]
  exact if_pos hc

/-- A header whose content is not there yet. -/
theorem turn_incomplete (h : headerSize ≤ s.packet.length)
    (hc : (parseHeader s.packet).expected = (parseHeader s.packet).chksum)
    (hl : s.packet.length < headerSize + (parseHeader s.packet).packetSize) :
    turn s [] = (some .shutdown, { s with skipped := 0 }, []) := by
  have hs : ({ s with skipped := 0 } : Stream).packet.length <
      headerSize + (parseHeader s.packet).packetSize := hl
  rw [turn, readPacket_of_le h]
  dsimp only
  rw [if_neg (not_not_intro hc), readPacket_nil_of_lt hs]

/-- A whole packet. -/
theorem turn_whole
    (hc : (parseHeader s.packet).expected = (parseHeader s.packet).chksum)
    (hl : headerSize + (parseHeader s.packet).packetSize ≤ s.packet.length) (sub : Substream) :
    turn s sub =
      ((takePacket (parseHeader s.packet) { s with skipped := 0 }).1,
        (takePacket (parseHeader s.packet) { s with skipped := 0 }).2, sub) := by
  have h : headerSize ≤ s.packet.length := Nat.le_trans (Nat.le_add_right _ _) hl
  have hs : headerSize + (parseHeader s.packet).packetSize ≤
      ({ s with skipped := 0 } : Stream).packet.length := hl
  rw [turn, readPacket_of_le h]
  dsimp only
  rw [if_neg (not_not_intro hc), readPacket_of_le hs]

/-- Taking a packet out neither times out nor ends the substream. -/
theorem takePacket_ne (h : Header) (s : Stream) :
    (takePacket h s).1 ≠ some .timeout ∧ (takePacket h s).1 ≠ some .shutdown := by
  rw [takePacket]
  dsimp only
  split <;> simp

/-! ## The loop ends -/

/-- What reading has left to go through, in bytes and in reads of the substream. -/
def todo (s : Stream) (sub : Substream) : Nat := (pending s sub).length + sub.length

/-- What a turn consumes it takes at the front of the bytes to come. -/
theorem turn_suffix
    {r : Option Outcome} (h : turn s sub = (r, s', sub')) :
    pending s' sub' <:+ pending s sub := by
  rw [turn] at h
  split at h
  · rename_i h₁; cases h; exact ⟨[], (readPacket_spec h₁).pending_eq⟩
  · rename_i h₁; cases h; exact ⟨[], (readPacket_spec h₁).pending_eq⟩
  · rename_i s₁ sub₁ h₁
    have p₁ := readPacket_spec h₁
    have l₁ := p₁.filled rfl
    rw [← p₁.pending_eq]
    dsimp only at h
    split at h
    · cases h
      exact pending_drop_suffix _ _ 1
    · split at h
      · rename_i h₂; cases h; exact ⟨[], (readPacket_spec h₂).pending_eq⟩
      · rename_i h₂; cases h; exact ⟨[], (readPacket_spec h₂).pending_eq⟩
      · rename_i s₂ sub₂ h₂
        have p₂ := readPacket_spec h₂
        have e₂ : pending s₂ sub₂ = pending s₁ sub₁ := p₂.pending_eq
        cases h
        rw [pending, takePacket_packet, ← e₂]
        exact pending_drop_suffix _ _ _

/-- A turn that finds the substream still alive leaves less to do. -/
theorem turn_lt
    {r : Option Outcome} (h : turn s sub = (r, s', sub')) (hr : r ≠ some .shutdown) :
    todo s' sub' < todo s sub := by
  rw [turn] at h
  have hpos : 0 < headerSize := by decide
  split at h
  · rename_i h₁
    have p₁ := readPacket_spec h₁
    cases h
    rw [todo, todo, p₁.pending_eq]
    exact Nat.add_lt_add_left (p₁.timeout rfl) _
  · cases h; exact absurd rfl hr
  · rename_i s₁ sub₁ h₁
    have p₁ := readPacket_spec h₁
    have l₁ := p₁.filled rfl
    have n₁ := p₁.length_le
    have t₁ : todo s₁ sub₁ ≤ todo s sub := by
      rw [todo, todo, p₁.pending_eq]
      exact Nat.add_le_add_left n₁ _
    dsimp only at h
    split at h
    · cases h
      refine Nat.lt_of_lt_of_le ?_ t₁
      rw [todo, todo, length_pending, length_pending, List.length_drop]
      omega
    · split at h
      · rename_i h₂
        have p₂ := readPacket_spec h₂
        cases h
        refine Nat.lt_of_lt_of_le ?_ t₁
        rw [todo, todo, p₂.pending_eq]
        exact Nat.add_lt_add_left (p₂.timeout rfl) _
      · cases h; exact absurd rfl hr
      · rename_i s₂ sub₂ h₂
        have p₂ := readPacket_spec h₂
        have l₂ := p₂.filled rfl
        have n₂ := p₂.length_le
        have e₂ : pending s₂ sub₂ = pending s₁ sub₁ := p₂.pending_eq
        cases h
        refine Nat.lt_of_lt_of_le ?_ t₁
        rw [todo, todo, ← e₂, length_pending, length_pending, takePacket_packet,
          List.length_drop]
        omega

/-- `_read_any`, up to its call to `unserialize`. -/
def readContent (s : Stream) (sub : Substream) : Outcome × Stream × Substream :=
  match _h : turn s sub with
  | (some o, s', sub') => (o, s', sub')
  | (none, s', sub') => readContent s' sub'
termination_by todo s sub
decreasing_by exact turn_lt _h nofun

theorem readContent_done {o : Outcome}
    (h : turn s sub = (some o, s', sub')) : readContent s sub = (o, s', sub') := by
  rw [readContent]
  split
  · rename_i he; rw [h] at he; cases he; rfl
  · rename_i he; rw [h] at he; cases he

theorem readContent_again
    (h : turn s sub = (none, s', sub')) : readContent s sub = readContent s' sub' := by
  rw [readContent]
  split
  · rename_i he; rw [h] at he; cases he
  · rename_i he; rw [h] at he; cases he; rfl

theorem readContent_suffix (s : Stream) (sub : Substream) :
    pending (readContent s sub).2.1 (readContent s sub).2.2 <:+ pending s sub := by
  induction s, sub using readContent.induct with
  | case1 s sub o s' sub' h => rw [readContent_done h]; exact turn_suffix h
  | case2 s sub s' sub' h ih => rw [readContent_again h]; exact ih.trans (turn_suffix h)

theorem readContent_lt {o : Outcome}
    (h : readContent s sub = (o, s', sub')) (ho : o ≠ .shutdown) : todo s' sub' < todo s sub := by
  induction s, sub using readContent.induct with
  | case1 s sub o₁ s₁ sub₁ ht =>
    rw [readContent_done ht] at h
    cases h
    exact turn_lt ht (fun he => ho (Option.some.inj he))
  | case2 s sub s₁ sub₁ ht ih =>
    rw [readContent_again ht] at h
    exact Nat.lt_trans (ih h) (turn_lt ht nofun)

/-! ## What a call returns -/

/-- How a call to `_read_any` ends. -/
inductive ReadResult (reg : Registry) where
  /-- True, with an event. -/
  | event (d : Data reg)
  /-- True with a null pointer: the type of the event is not registered. -/
  | ignored (event_id : UInt32)
  /-- False. -/
  | timeout
  /-- `exceptions::msg`, thrown by `unserialize`. -/
  | error (msg : String)
  /-- `exceptions::shutdown`, thrown by the substream. -/
  | shutdown

/-- What the content of a complete event turns into. -/
def finish (reg : Registry) (i : Ids) (content : Bytes) : ReadResult reg :=
  match unserialize reg i content (UInt32.ofNat content.length) with
  | .error msg => .error msg
  | .ok none => .ignored i.event_id
  | .ok (some d) => .event d

def Outcome.result (reg : Registry) : Outcome → ReadResult reg
  | content i c => finish reg i c
  | timeout => .timeout
  | shutdown => .shutdown

/-- `_read_any`. -/
def readAny (reg : Registry) (s : Stream) (sub : Substream) :
    ReadResult reg × Stream × Substream :=
  let (o, s', sub') := readContent s sub
  (o.result reg, s', sub')

/-- A content never turns into a time out, nor into the end of the substream. -/
theorem finish_ne (reg : Registry) (i : Ids) (content : Bytes) :
    finish reg i content ≠ .timeout ∧ finish reg i content ≠ .shutdown := by
  rw [finish]
  split <;> simp

theorem result_timeout {reg : Registry} {o : Outcome} (h : o.result reg = .timeout) :
    o = .timeout := by
  cases o with
  | content i c => exact absurd h (finish_ne reg i c).1
  | timeout => rfl
  | shutdown => cases h

/-! ## Call after call -/

/-- Does the call end on the shutdown of the substream? -/
def ReadResult.isShutdown {reg : Registry} : ReadResult reg → Bool
  | shutdown => true
  | _ => false

/-- What a call adds to what has been decoded: nothing when it was interrupted. -/
def ReadResult.decoded {reg : Registry} : ReadResult reg → List (ReadResult reg)
  | timeout => []
  | shutdown => []
  | r => [r]

theorem readAny_lt {reg : Registry} {r : ReadResult reg}
    (h : readAny reg s sub = (r, s', sub')) (hr : ¬ r.isShutdown = true) :
    todo s' sub' < todo s sub := by
  obtain ⟨o, s₁, sub₁, ho⟩ : ∃ o s₁ sub₁, readContent s sub = (o, s₁, sub₁) := ⟨_, _, _, rfl⟩
  rw [readAny, ho] at h
  cases h
  refine readContent_lt ho (fun he => hr ?_)
  rw [he]
  rfl

/--
Successive calls to `_read_any` until the substream is exhausted: all they
decoded, and the state they leave.
-/
def readAll (reg : Registry) (s : Stream) (sub : Substream) : List (ReadResult reg) × Stream :=
  match _h : readAny reg s sub with
  | (r, s', sub') =>
    if _hr : r.isShutdown then ([], s')
    else
      let (rs, final) := readAll reg s' sub'
      (r.decoded ++ rs, final)
termination_by todo s sub
decreasing_by exact readAny_lt _h _hr

/-- The contents these calls hand to `unserialize`. -/
def contents (s : Stream) (sub : Substream) : List (Ids × Bytes) × Stream :=
  match _h : readContent s sub with
  | (.shutdown, s', _) => ([], s')
  | (.timeout, s', sub') => contents s' sub'
  | (.content i c, s', sub') => ((i, c) :: (contents s' sub').1, (contents s' sub').2)
termination_by todo s sub
decreasing_by all_goals exact readContent_lt _h nofun

theorem contents_shutdown
    (h : readContent s sub = (.shutdown, s', sub')) : contents s sub = ([], s') := by
  rw [contents]
  split <;> rename_i he <;> rw [h] at he <;> cases he
  rfl

theorem contents_timeout
    (h : readContent s sub = (.timeout, s', sub')) : contents s sub = contents s' sub' := by
  rw [contents]
  split <;> rename_i he <;> rw [h] at he <;> cases he
  rfl

theorem contents_content {i : Ids} {c : Bytes}
    (h : readContent s sub = (.content i c, s', sub')) :
    contents s sub = ((i, c) :: (contents s' sub').1, (contents s' sub').2) := by
  rw [contents]
  split <;> rename_i he <;> rw [h] at he <;> cases he
  rfl

/-- The results of the calls are those contents, unserialized. -/
theorem readAll_eq_contents (reg : Registry) (s : Stream) (sub : Substream) :
    readAll reg s sub =
      ((contents s sub).1.map (fun c => finish reg c.1 c.2), (contents s sub).2) := by
  induction s, sub using contents.induct with
  | case1 s sub s' sub' h => rw [readAll, readAny, h, contents_shutdown h]; rfl
  | case2 s sub s' sub' h ih => rw [readAll, readAny, h, contents_timeout h]; exact ih
  | case3 s sub i c s' sub' h ih =>
    have hr : ¬ (finish reg i c).isShutdown = true := by
      rw [finish]
      split <;> exact Bool.false_ne_true
    have hd : (finish reg i c).decoded = [finish reg i c] := by
      rw [finish]
      split <;> rfl
    rw [readAll, readAny, h, contents_content h]
    dsimp only [Outcome.result]
    rw [dif_neg hr, hd, ih]
    rfl

end CentreonBroker.Bbdo
