import CentreonBroker.Bbdo.Chunking

/-!
# A stream of well-formed packets

When nothing on the wire is corrupted the reader never resynchronizes, and what
it does can be told packet by packet: a part of `0xffff` bytes is kept in a
buffer, a shorter one closes its event. `reassemble` tells it that way, over the
buffers alone, and `contents_wire` says that the stream does just that with the
bytes of the packets, however they arrive.
-/

namespace CentreonBroker.Bbdo

open Bytes Io

/-- A packet before it is put on the wire. -/
structure Part where
  ids : Ids
  content : Bytes
  /-- The size fits the field that announces it. -/
  fits : content.length ≤ maxPacketSize

/-- The bytes of successive packets. -/
def wire (ps : List Part) : Bytes := (ps.map fun p => packet p.ids p.content).flatten

/-- The contents completed by successive packets, and the parts that still wait. -/
def reassemble : List Buffer → List Part → List (Ids × Bytes) × List Buffer
  | buffer, [] => ([], buffer)
  | buffer, p :: ps =>
    if p.content.length ≠ maxPacketSize then
      let (content, buffer) := joinLast p.ids p.content buffer
      let (cs, final) := reassemble buffer ps
      ((p.ids, content) :: cs, final)
    else reassemble (keepPart p.ids p.content buffer) ps

variable {buffer : List Buffer} {ps : List Part}

theorem reassemble_last {p : Part}
    (h : p.content.length < maxPacketSize) :
    reassemble buffer (p :: ps) =
      ((p.ids, (joinLast p.ids p.content buffer).1) ::
          (reassemble (joinLast p.ids p.content buffer).2 ps).1,
        (reassemble (joinLast p.ids p.content buffer).2 ps).2) := by
  rw [reassemble, if_pos (Nat.ne_of_lt h)]

theorem reassemble_full {p : Part}
    (h : p.content.length = maxPacketSize) :
    reassemble buffer (p :: ps) = reassemble (keepPart p.ids p.content buffer) ps := by
  rw [reassemble, if_neg (not_not_intro h)]

/-! ## The header of a packet -/

/-- A header read field by field. -/
theorem parseHeader_fields (crc size : UInt16) (i : Ids) (tail : Bytes) :
    parseHeader (htons crc ++ (htons size ++ (htonl i.event_id ++ (htonl i.source_id ++
      (htonl i.dest_id ++ tail))))) =
    ⟨crc, size.toNat, i,
      crc16Ccitt (htons size ++ (htonl i.event_id ++ (htonl i.source_id ++ htonl i.dest_id)))⟩ := by
  generalize hA : htons crc = A
  have lA : A.length = 2 := by rw [← hA]; exact length_htons _
  have h2 : ∀ X : Bytes, (A ++ X).drop 2 = X := fun X => List.drop_left' lA
  have h4 : ∀ X : Bytes, (A ++ (htons size ++ X)).drop 4 = X := by
    intro X
    rw [← List.append_assoc]
    exact List.drop_left' (by simp [lA])
  have h8 : ∀ X : Bytes, (A ++ (htons size ++ (htonl i.event_id ++ X))).drop 8 = X := by
    intro X
    rw [← List.append_assoc, ← List.append_assoc]
    exact List.drop_left' (by simp [lA])
  have h12 : ∀ X : Bytes,
      (A ++ (htons size ++ (htonl i.event_id ++ (htonl i.source_id ++ X)))).drop 12 = X := by
    intro X
    rw [← List.append_assoc, ← List.append_assoc, ← List.append_assoc]
    exact List.drop_left' (by simp [lA])
  have h14 : (htons size ++ (htonl i.event_id ++ (htonl i.source_id ++
      (htonl i.dest_id ++ tail)))).take (headerSize - 2) =
      htons size ++ (htonl i.event_id ++ (htonl i.source_id ++ htonl i.dest_id)) := by
    rw [← List.append_assoc (htonl i.source_id), ← List.append_assoc (htonl i.event_id),
      ← List.append_assoc (htons size)]
    exact List.take_left' (by simp [headerSize])
  rw [parseHeader, h2, h4, h8, h12, h14, ntohs_htons, ntohl_htonl, ntohl_htonl, ntohl_htonl,
    ← hA, ntohs_htons]

variable {content : Bytes}

/-- **The reader finds the header the writer put there**, and it checks. -/
theorem parseHeader_packet (i : Ids) (h : content.length ≤ maxPacketSize)
    (rest : Bytes) :
    ∃ crc : UInt16, parseHeader (packet i content ++ rest) = ⟨crc, content.length, i, crc⟩ := by
  have hs : (UInt16.ofNat content.length).toNat = content.length := by
    have hlt : content.length < 2 ^ 16 := Nat.lt_succ_of_le h
    rw [UInt16.toNat_ofNat']
    exact Nat.mod_eq_of_lt hlt
  unfold packet header
  dsimp only
  simp only [List.append_assoc]
  rw [parseHeader_fields, hs]
  exact ⟨_, rfl⟩

/-- **A turn over a packet.** -/
theorem turn_packet (p : Part) (rest : Bytes) (buffer : List Buffer) (sub : Substream) :
    turn ⟨packet p.ids p.content ++ rest, buffer, 0⟩ sub =
      if p.content.length ≠ maxPacketSize then
        (some (.content p.ids (joinLast p.ids p.content buffer).1),
          ⟨rest, (joinLast p.ids p.content buffer).2, 0⟩, sub)
      else (none, ⟨rest, keepPart p.ids p.content buffer, 0⟩, sub) := by
  obtain ⟨crc, hh⟩ := parseHeader_packet p.ids p.fits rest
  have hp : (packet p.ids p.content).length = headerSize + p.content.length := length_packet _ _
  have hx : extract (packet p.ids p.content ++ rest) p.content.length = (p.content, rest) := by
    have hd : (packet p.ids p.content).drop headerSize = p.content :=
      List.drop_left' (length_header _ _)
    rw [extract_eq, List.drop_left' hp, List.drop_append_of_le_length (by omega), hd,
      List.take_left' rfl]
  rw [turn_whole]
  · dsimp only
    rw [hh, takePacket]
    dsimp only
    rw [hx]
    dsimp only
    split <;> rfl
  · dsimp only
    rw [hh]
  · dsimp only
    rw [hh, List.length_append, hp]
    exact Nat.le_add_right _ _

/-! ## All the packets -/

theorem contents_again {s s' : Stream} {sub sub' : Substream}
    (h : turn s sub = (none, s', sub')) : contents s sub = contents s' sub' := by
  rw [contents, contents, readContent_again h]

/-- The packets are taken one after the other out of the bytes they make. -/
theorem contents_packets (ps : List Part) : ∀ (buffer : List Buffer),
    contents ⟨wire ps, buffer, 0⟩ [] =
      ((reassemble buffer ps).1, ⟨[], (reassemble buffer ps).2, 0⟩) := by
  induction ps with
  | nil =>
    intro buffer
    have hshort : turn ⟨wire [], buffer, 0⟩ [] = (some .shutdown, ⟨wire [], buffer, 0⟩, []) :=
      turn_short (Nat.zero_lt_succ _)
    rw [contents_shutdown (readContent_done hshort)]
    rfl
  | cons p ps ih =>
    intro buffer
    have hw : wire (p :: ps) = packet p.ids p.content ++ wire ps := rfl
    have ht := turn_packet p (wire ps) buffer []
    rw [hw]
    rcases Nat.lt_or_eq_of_le p.fits with h | h
    · rw [if_pos (Nat.ne_of_lt h)] at ht
      rw [contents_content (readContent_done ht), ih, reassemble_last h]
    · rw [if_neg (not_not_intro h)] at ht
      rw [contents_again ht, ih, reassemble_full h]

/--
**A stream of well-formed packets is reassembled packet by packet**, however its
bytes come.
-/
theorem contents_wire {sub : Substream} (h : received sub = wire ps)
    (buffer : List Buffer) :
    contents ⟨[], buffer, 0⟩ sub =
      ((reassemble buffer ps).1, ⟨[], (reassemble buffer ps).2, 0⟩) := by
  rw [contents_absorb, absorb, pending, h]
  exact contents_packets ps buffer

/-! ## Who waits -/

variable {i : Ids}

theorem matches_iff {b : Buffer} : b.matches i = true ↔ b.ids = i := by
  obtain ⟨⟨e, s, d⟩, buf⟩ := b
  obtain ⟨e', s', d'⟩ := i
  simp only [Buffer.matches, Bool.and_eq_true, beq_iff_eq, Ids.mk.injEq, and_assoc]
  constructor
  · rintro ⟨rfl, rfl, rfl⟩; exact ⟨rfl, rfl, rfl⟩
  · rintro ⟨rfl, rfl, rfl⟩; exact ⟨rfl, rfl, rfl⟩

variable {α : Type}

theorem purge_of_le {n : Nat} {l : List α} (h : l.length ≤ n) : purge n l = l := by
  rw [purge, Nat.sub_eq_zero_of_le h, List.drop_zero]

theorem length_purge (n : Nat) (l : List α) : (purge n l).length ≤ n := by
  rw [purge, List.length_drop]
  omega

theorem purge_subset {n : Nat} {l : List α} {x : α} (h : x ∈ purge n l) : x ∈ l :=
  List.mem_of_mem_drop h

theorem map_purge {β : Type} (f : α → β) (n : Nat) (l : List α) :
    (purge n l).map f = purge n (l.map f) := by
  rw [purge, purge, List.map_drop, List.length_map]

/-- The ids for which some parts wait, oldest first. -/
def waiting (buffer : List Buffer) : List Ids := buffer.map Buffer.ids

/-- The ids that wait once a part of `0xffff` bytes has come. -/
def keepId (i : Ids) (ids : List Ids) : List Ids := purge 4 (if i ∈ ids then ids else ids ++ [i])

/-- The ids that wait once a last part has come. -/
def dropId (i : Ids) (ids : List Ids) : List Ids := purge 3 (ids.erase i)

theorem find?_eq_none :
    buffer.find? (·.matches i) = none ↔ i ∉ waiting buffer := by
  rw [List.find?_eq_none, waiting, List.mem_map]
  constructor
  · rintro h ⟨b, hb, rfl⟩
    exact h b hb (matches_iff.mpr rfl)
  · intro h b hb hm
    exact h ⟨b, hb, matches_iff.mp hm⟩

/-- A part is pushed if, and only if, its ids already wait, and then the same ids do. -/
theorem waiting_pushFirst (i : Ids) (content : Bytes) (buffer : List Buffer) :
    (pushFirst i content buffer).map waiting =
      if i ∈ waiting buffer then some (waiting buffer) else none := by
  induction buffer with
  | nil => rfl
  | cons b bs ih =>
    rw [pushFirst]
    by_cases hm : b.matches i = true
    · have hi : i ∈ waiting (b :: bs) := by
        rw [← matches_iff.mp hm]
        exact List.mem_cons_self
      rw [if_pos hm, if_pos hi]
      rfl
    · have hne : ¬ i = b.ids := fun he => hm (matches_iff.mpr he.symm)
      have hiff : i ∈ waiting (b :: bs) ↔ i ∈ waiting bs := by
        simp [waiting, hne]
      rw [if_neg hm, Option.map_map]
      by_cases hi : i ∈ waiting bs
      · rw [if_pos hi] at ih
        rw [if_pos (hiff.mpr hi)]
        obtain ⟨bs', h1, h2⟩ := Option.map_eq_some_iff.mp ih
        rw [h1]
        simp [waiting] at h2 ⊢
        exact h2
      · rw [if_neg hi] at ih
        rw [if_neg (fun h => hi (hiff.mp h)), Option.map_eq_none_iff.mp ih]
        rfl

theorem waiting_keepPart (i : Ids) (content : Bytes) (buffer : List Buffer) :
    waiting (keepPart i content buffer) = keepId i (waiting buffer) := by
  have h := waiting_pushFirst i content buffer
  rw [keepPart, keepId, waiting, map_purge]
  by_cases hi : i ∈ waiting buffer
  · rw [if_pos hi] at h ⊢
    obtain ⟨bs', h1, h2⟩ := Option.map_eq_some_iff.mp h
    rw [h1, ← h2]
    rfl
  · rw [if_neg hi] at h ⊢
    rw [Option.map_eq_none_iff.mp h]
    simp [waiting]

theorem waiting_joinLast (i : Ids) (content : Bytes) (buffer : List Buffer) :
    waiting (joinLast i content buffer).2 = dropId i (waiting buffer) := by
  have herase : waiting (buffer.eraseP (·.matches i)) = (waiting buffer).erase i := by
    induction buffer with
    | nil => rfl
    | cons b bs ih =>
      by_cases hm : b.matches i = true
      · simp [waiting, hm, matches_iff.mp hm]
      · have hne : b.ids ≠ i := fun he => hm (matches_iff.mpr he)
        simp only [waiting, List.eraseP_cons, hm, List.map_cons, cond_false] at ih ⊢
        rw [ih, List.erase_cons_tail (by simpa using hne)]
  rw [joinLast]
  cases hf : buffer.find? (·.matches i) with
  | some b => rw [dropId, ← herase, waiting, map_purge]; rfl
  | none =>
    rw [dropId, List.erase_of_not_mem (find?_eq_none.mp hf), waiting, map_purge]
    rfl

/-! ## What waits -/

/-- The bytes that wait for the ids, which the next last part will be joined to. -/
def stale (i : Ids) (buffer : List Buffer) : Bytes :=
  match buffer.find? (·.matches i) with
  | some b => b.toVector
  | none => []

theorem stale_cons (i : Ids) (b : Buffer) (bs : List Buffer) :
    stale i (b :: bs) = if b.matches i then b.toVector else stale i bs := by
  rw [stale, stale, List.find?_cons]
  by_cases hm : b.matches i = true
  · simp [hm]
  · simp [hm]

/-- The two bounds the reader keeps on what waits. -/
structure Bounded (buffer : List Buffer) : Prop where
  few : buffer.length ≤ 4
  /-- Something waits in each buffer. -/
  nonempty : ∀ b ∈ buffer, b.toVector ≠ []

theorem Bounded.nil : Bounded [] := ⟨Nat.zero_le _, nofun⟩

/-- Nothing waits for some ids just when they are not among those that wait. -/
theorem stale_eq_nil (hb : Bounded buffer) :
    stale i buffer = [] ↔ i ∉ waiting buffer := by
  rw [← find?_eq_none, stale]
  cases hf : buffer.find? (·.matches i) with
  | none => simp
  | some b => simpa using hb.nonempty b (List.mem_of_find?_eq_some hf)

theorem toVector_pushBack (b : Buffer) (content : Bytes) :
    (b.pushBack content).toVector = b.toVector ++ content := by
  simp [Buffer.toVector, Buffer.pushBack]

/-- The content of an event is all that waited for its ids, then its last part. -/
theorem joinLast_fst (i : Ids) (content : Bytes) (buffer : List Buffer) :
    (joinLast i content buffer).1 = stale i buffer ++ content := by
  rw [joinLast, stale]
  cases buffer.find? (·.matches i) with
  | some b => exact toVector_pushBack b content
  | none => rfl

theorem Bounded.joinLast (hb : Bounded buffer) (i : Ids)
    (content : Bytes) : Bounded (joinLast i content buffer).2 := by
  rw [Bbdo.joinLast]
  cases buffer.find? (·.matches i) with
  | some b =>
    refine ⟨Nat.le_succ_of_le (length_purge 3 _), fun b' hb' => ?_⟩
    exact hb.nonempty b' (List.mem_of_mem_eraseP (purge_subset hb'))
  | none =>
    exact ⟨Nat.le_succ_of_le (length_purge 3 _), fun b' hb' => hb.nonempty b' (purge_subset hb')⟩

/-- What a part of `0xffff` bytes does to the buffers, according to whether its ids wait. -/
theorem pushFirst_stale (i : Ids) (content : Bytes) {buffer' : List Buffer}
    (h : pushFirst i content buffer = some buffer') :
    stale i buffer' = stale i buffer ++ content ∧ buffer'.length = buffer.length ∧
      ∀ b' ∈ buffer', b' ∈ buffer ∨ ∃ b ∈ buffer, b' = b.pushBack content := by
  induction buffer generalizing buffer' with
  | nil => cases h
  | cons b bs ih =>
    rw [pushFirst] at h
    by_cases hm : b.matches i = true
    · rw [if_pos hm] at h
      cases h
      have hm' : (b.pushBack content).matches i = true := hm
      refine ⟨?_, rfl, fun b' hb' => ?_⟩
      · rw [stale_cons, stale_cons, if_pos hm', if_pos hm]
        exact toVector_pushBack b content
      · rcases List.mem_cons.mp hb' with rfl | hb'
        · exact Or.inr ⟨b, List.mem_cons_self, rfl⟩
        · exact Or.inl (List.mem_cons_of_mem _ hb')
    · rw [if_neg hm] at h
      obtain ⟨bs', h1, rfl⟩ := Option.map_eq_some_iff.mp h
      obtain ⟨h2, h3, h4⟩ := ih h1
      refine ⟨?_, by rw [List.length_cons, List.length_cons, h3], fun b' hb' => ?_⟩
      · rw [stale_cons, stale_cons, if_neg hm, if_neg hm]
        exact h2
      · rcases List.mem_cons.mp hb' with rfl | hb'
        · exact Or.inl List.mem_cons_self
        · rcases h4 b' hb' with h | ⟨b₀, h, rfl⟩
          · exact Or.inl (List.mem_cons_of_mem _ h)
          · exact Or.inr ⟨b₀, List.mem_cons_of_mem _ h, rfl⟩

theorem pushFirst_none
    (h : pushFirst i content buffer = none) : buffer.find? (·.matches i) = none := by
  have hw := waiting_pushFirst i content buffer
  rw [h] at hw
  rw [find?_eq_none]
  intro hi
  rw [if_pos hi] at hw
  cases hw

/-- A new buffer is the last one, so it is never the one purged. -/
theorem find?_purge_concat {b : Buffer}
    (h : buffer.find? (·.matches i) = none) (hb : b.matches i = true) :
    (purge 4 (buffer ++ [b])).find? (·.matches i) = some b := by
  have hd : purge 4 (buffer ++ [b]) = buffer.drop (buffer.length - 3) ++ [b] := by
    rw [purge, List.length_append, List.length_singleton, Nat.add_sub_add_right (m := 3)]
    exact List.drop_append_of_le_length (Nat.sub_le _ _)
  have hn : (buffer.drop (buffer.length - 3)).find? (·.matches i) = none := by
    rw [List.find?_eq_none] at h ⊢
    exact fun x hx => h x (List.mem_of_mem_drop hx)
  rw [hd, List.find?_append, hn]
  simp [hb]

/-- **A part joins what waited for its ids**, and nothing else. -/
theorem stale_keepPart (hb : Bounded buffer) (i : Ids) (content : Bytes) :
    stale i (keepPart i content buffer) = stale i buffer ++ content := by
  rw [keepPart]
  cases h : pushFirst i content buffer with
  | some buffer' =>
    obtain ⟨h1, h2, _⟩ := pushFirst_stale i content h
    rw [Option.getD_some, purge_of_le (h2 ▸ hb.few), h1]
  | none =>
    have hf := pushFirst_none h
    have hm : (⟨i, [content]⟩ : Buffer).matches i = true := matches_iff.mpr rfl
    rw [Option.getD_none, stale, find?_purge_concat hf hm, stale, hf]
    simp [Buffer.toVector]

theorem Bounded.keepPart (hb : Bounded buffer) (i : Ids)
    (hc : content ≠ []) : Bounded (keepPart i content buffer) := by
  rw [Bbdo.keepPart]
  refine ⟨length_purge 4 _, fun b' hb' => ?_⟩
  have hb' := purge_subset hb'
  cases h : pushFirst i content buffer with
  | some buffer' =>
    rw [h] at hb'
    rcases (pushFirst_stale i content h).2.2 b' hb' with hmem | ⟨b, _, rfl⟩
    · exact hb.nonempty b' hmem
    · rw [toVector_pushBack]
      exact fun he => hc (List.append_eq_nil_iff.mp he).2
  | none =>
    rw [h] at hb'
    rcases List.mem_append.mp hb' with hmem | hmem
    · exact hb.nonempty b' hmem
    · rw [List.mem_singleton.mp hmem]
      simpa [Buffer.toVector] using hc

end CentreonBroker.Bbdo

/-!
## Events of which some packets are missing

A remnant is what a stream still has of an event once some of its packets have
been dropped from it: some of its full parts, in order, and its last part or not.
Nothing else marks where an event starts, so what the reader makes of the
remnants of one event depends on what waits when it comes.

That is the whole story: the content handed to `unserialize` is what waited for
the ids, then the parts of the event that are left (`reassemble_remnant`). It is
the event's own content exactly when nothing waited (`reassemble_own_iff`).
-/

namespace CentreonBroker.Bbdo

open Bytes Io

/-- What is left of an event in a stream. -/
structure Remnant where
  ids : Ids
  /-- The bytes of its members, as they were serialized. -/
  payload : Bytes
  /-- The full parts that are left. -/
  full : List Bytes
  kept : full.Sublist (fullParts payload)
  /-- Is the last part left? -/
  last : Bool

theorem Remnant.length_full (r : Remnant) : ∀ c ∈ r.full, c.length = maxPacketSize :=
  fun _ hc => length_of_mem_fullParts (r.kept.subset hc)

/-- Full parts as packets. -/
def fullPackets (i : Ids) (cs : List Bytes) (h : ∀ c ∈ cs, c.length = maxPacketSize) :
    List Part :=
  cs.pmap (fun c hc => ⟨i, c, Nat.le_of_eq hc⟩) h

/-- The packets that are left of an event. -/
def Remnant.parts (r : Remnant) : List Part :=
  fullPackets r.ids r.full r.length_full ++
    if r.last then [⟨r.ids, lastPart r.payload, Nat.le_of_lt (length_lastPart _)⟩] else []

/-- The bytes that are left of an event. -/
def Remnant.content (r : Remnant) : Bytes := r.full.flatten ++ lastPart r.payload

/-! ## The reader over a remnant -/

/-- The buffers once full parts have come. -/
def keepParts (i : Ids) (cs : List Bytes) (buffer : List Buffer) : List Buffer :=
  cs.foldl (fun buffer c => keepPart i c buffer) buffer

/-- The ids that wait once full parts have come. -/
def keepIds (i : Ids) (cs : List Bytes) (ids : List Ids) : List Ids :=
  cs.foldl (fun ids _ => keepId i ids) ids

/-- The buffers once a remnant has come. -/
def Remnant.buffer (r : Remnant) (buffer : List Buffer) : List Buffer :=
  if r.last then (joinLast r.ids (lastPart r.payload) (keepParts r.ids r.full buffer)).2
  else keepParts r.ids r.full buffer

/-- The ids that wait once a remnant has come: they depend on which packets are left only. -/
def Remnant.waiting (r : Remnant) (ids : List Ids) : List Ids :=
  if r.last then dropId r.ids (keepIds r.ids r.full ids) else keepIds r.ids r.full ids

theorem reassemble_fullPackets {i : Ids} {cs : List Bytes}
    {h : ∀ c ∈ cs, c.length = maxPacketSize} {ps : List Part} : ∀ {buffer : List Buffer},
    reassemble buffer (fullPackets i cs h ++ ps) = reassemble (keepParts i cs buffer) ps := by
  induction cs with
  | nil => intro buffer; rfl
  | cons c cs ih =>
    intro buffer
    have hc : c.length = maxPacketSize := h c List.mem_cons_self
    rw [fullPackets, List.pmap_cons, List.cons_append, reassemble_full hc]
    exact ih

theorem keepParts_spec {i : Ids} {cs : List Bytes} (h : ∀ c ∈ cs, c.length = maxPacketSize) :
    ∀ {buffer : List Buffer}, Bounded buffer →
    Bounded (keepParts i cs buffer) ∧
      stale i (keepParts i cs buffer) = stale i buffer ++ cs.flatten ∧
      waiting (keepParts i cs buffer) = keepIds i cs (waiting buffer) := by
  induction cs with
  | nil => intro buffer hb; exact ⟨hb, (List.append_nil _).symm, rfl⟩
  | cons c cs ih =>
    intro buffer hb
    have hne : c ≠ [] := by
      intro he
      have hc := h c List.mem_cons_self
      rw [he] at hc
      exact absurd hc (Nat.ne_of_lt (Nat.zero_lt_succ _))
    obtain ⟨h1, h2, h3⟩ := ih (fun c' hc' => h c' (List.mem_cons_of_mem _ hc')) (hb.keepPart i hne)
    refine ⟨h1, ?_, ?_⟩
    · rw [keepParts, List.foldl_cons]
      refine h2.trans ?_
      rw [stale_keepPart hb, List.flatten_cons, List.append_assoc]
    · rw [keepParts, List.foldl_cons]
      refine h3.trans ?_
      rw [waiting_keepPart]
      rfl

theorem Remnant.buffer_spec (r : Remnant) {buffer : List Buffer} (hb : Bounded buffer) :
    Bounded (r.buffer buffer) ∧
      Bbdo.waiting (r.buffer buffer) = r.waiting (Bbdo.waiting buffer) := by
  obtain ⟨h1, _, h3⟩ := keepParts_spec r.length_full hb
  rw [Remnant.buffer, Remnant.waiting]
  by_cases hl : r.last = true
  · rw [if_pos hl, if_pos hl, waiting_joinLast, h3]
    exact ⟨h1.joinLast _ _, rfl⟩
  · rw [if_neg hl, if_neg hl, h3]
    exact ⟨h1, rfl⟩

/-- **A remnant that has its last part completes a content**: what waited, then what is left. -/
theorem reassemble_remnant (r : Remnant) (ps : List Part) {buffer : List Buffer}
    (hb : Bounded buffer) :
    reassemble buffer (r.parts ++ ps) =
      ((if r.last then [(r.ids, stale r.ids buffer ++ r.content)] else []) ++
          (reassemble (r.buffer buffer) ps).1,
        (reassemble (r.buffer buffer) ps).2) := by
  obtain ⟨_, h2, _⟩ := keepParts_spec (i := r.ids) r.length_full hb
  rw [Remnant.parts, List.append_assoc, reassemble_fullPackets, Remnant.buffer]
  by_cases hl : r.last = true
  · rw [if_pos hl, if_pos hl, if_pos hl, List.singleton_append, reassemble_last (length_lastPart _)]
    dsimp only
    rw [joinLast_fst, h2, Remnant.content, List.append_assoc]
    rfl
  · rw [if_neg hl, if_neg hl, if_neg hl]
    rfl

/-! ## All the remnants of a stream -/

/-- The packets of a stream. -/
def remaining (rs : List Remnant) : List Part := rs.flatMap Remnant.parts

/-- The contents the reader should find: of each event whose last part is left, its own bytes. -/
def ownContents (rs : List Remnant) : List (Ids × Bytes) :=
  (rs.filter (·.last)).map fun r => (r.ids, r.content)

/--
No last part comes while parts of an earlier event wait for the same ids. Both
are known from the ids and from which packets are left.
-/
def Undisturbed (ids : List Ids) : List Remnant → Prop
  | [] => True
  | r :: rs => (r.last = true → r.ids ∉ ids) ∧ Undisturbed (r.waiting ids) rs

/-- **Each event gets its own content exactly when none is disturbed.** -/
theorem reassemble_own_iff (rs : List Remnant) : ∀ {buffer : List Buffer}, Bounded buffer →
    ((reassemble buffer (remaining rs)).1 = ownContents rs ↔
      Undisturbed (waiting buffer) rs) := by
  induction rs with
  | nil => intro buffer _; exact ⟨fun _ => trivial, fun _ => rfl⟩
  | cons r rs ih =>
    intro buffer hb
    obtain ⟨h1, h2⟩ := r.buffer_spec hb
    have hrest := ih h1
    rw [h2] at hrest
    have hrem : remaining (r :: rs) = r.parts ++ remaining rs := rfl
    rw [hrem, reassemble_remnant r _ hb, Undisturbed, ← hrest, ownContents]
    by_cases hl : r.last = true
    · rw [if_pos hl, List.filter_cons_of_pos hl, List.map_cons, List.singleton_append,
        List.cons.injEq, Prod.mk.injEq]
      -- the content is the event's own just when nothing is put before it
      have hown : stale r.ids buffer ++ r.content = r.content ↔ r.ids ∉ waiting buffer := by
        rw [List.append_left_eq_self, stale_eq_nil hb]
      rw [hown]
      constructor
      · rintro ⟨⟨_, h⟩, ht⟩; exact ⟨fun _ => h, ht⟩
      · rintro ⟨h, ht⟩; exact ⟨⟨rfl, h hl⟩, ht⟩
    · rw [if_neg hl, List.filter_cons_of_neg hl, List.nil_append]
      constructor
      · intro ht; exact ⟨fun h => absurd h hl, ht⟩
      · rintro ⟨_, ht⟩; exact ht

end CentreonBroker.Bbdo
