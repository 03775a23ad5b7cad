import CentreonBroker.Bbdo.Stream

/-!
# Chunks and timeouts do not matter

A raw chunk may stop anywhere in a header or a content, hold several packets, or
hold nothing; a read of the substream may time out after any of them. What the
stream decodes must depend on the bytes alone.

`absorb` is the stream as it would be had all the bytes still to come been in
`_packet` already. One turn of the loop over the chunks is one turn over the
absorbed stream (`turn_absorb`), unless it is interrupted, and then the absorbed
stream has not changed (`turn_absorb_timeout`). Call after call, that makes the
two decode the same (`readAll_absorb`).
-/

namespace CentreonBroker.Bbdo

open Bytes Io

/-- The stream that received at once all it had and all the substream had to give. -/
def absorb (s : Stream) (sub : Substream) : Stream := { s with packet := pending s sub }

@[simp] theorem absorb_nil (s : Stream) : absorb s [] = s := by
  simp [absorb, pending, received]

variable {sub' sub : Substream} {s s' : Stream}

/-- Receiving more changes nothing to what there is to receive. -/
theorem absorb_readPacket {size : Nat} {st : PacketStatus}
    (h : readPacket size s sub = (st, s', sub')) : absorb s' sub' = absorb s sub := by
  have hp := readPacket_spec h
  rw [absorb, absorb, hp.pending_eq, hp.buffer_eq, hp.skipped_eq]

/-! ## What is read at the front stays the same when bytes come behind -/

theorem ntohs_append {b : Bytes} (h : 2 ≤ b.length) (c : Bytes) : ntohs (b ++ c) = ntohs b := by
  rw [ntohs, List.take_append_of_le_length h, ntohs]

theorem ntohl_append {b : Bytes} (h : 4 ≤ b.length) (c : Bytes) : ntohl (b ++ c) = ntohl b := by
  rw [ntohl, List.take_append_of_le_length h, ntohl]

/-- A header is its sixteen bytes. -/
theorem parseHeader_append {p : Bytes} (h : headerSize ≤ p.length) (q : Bytes) :
    parseHeader (p ++ q) = parseHeader p := by
  have h16 : 16 ≤ p.length := h
  have hd : ∀ k, k ≤ 12 → (p ++ q).drop k = p.drop k ++ q := fun k hk =>
    List.drop_append_of_le_length (by omega)
  have hl : ∀ k, k ≤ 12 → 4 ≤ (p.drop k).length := fun k hk => by rw [List.length_drop]; omega
  have h2 : headerSize - 2 ≤ (p.drop 2).length := by
    rw [List.length_drop]
    exact Nat.sub_le_sub_right h 2
  rw [parseHeader, parseHeader, hd 2 (by decide), hd 4 (by decide), hd 8 (by decide),
    hd 12 (by decide), ntohs_append (b := p) (by omega),
    ntohs_append (Nat.le_trans (by decide) (hl 2 (by decide))), ntohl_append (hl 4 (by decide)), ntohl_append (hl 8 (by decide)),
    ntohl_append (hl 12 (by decide)), List.take_append_of_le_length h2]

theorem parseHeader_absorb (h : headerSize ≤ s.packet.length) (sub : Substream) :
    parseHeader (absorb s sub).packet = parseHeader s.packet :=
  parseHeader_append h _

/-- A whole packet is taken out the same way whatever stands behind it. -/
theorem takePacket_absorb {h : Header}
    (hl : headerSize + h.packetSize ≤ s.packet.length) (sub : Substream) :
    takePacket h (absorb s sub) =
      ((takePacket h s).1, absorb (takePacket h s).2 sub) := by
  have hh : headerSize ≤ s.packet.length := Nat.le_trans (Nat.le_add_right _ _) hl
  have he : extract (pending s sub) h.packetSize =
      ((extract s.packet h.packetSize).1, (extract s.packet h.packetSize).2 ++ received sub) := by
    rw [extract_eq, extract_eq, pending, List.drop_append_of_le_length hh,
      List.take_append_of_le_length (by rw [List.length_drop]; omega),
      List.drop_append_of_le_length hl]
  rw [takePacket, takePacket, absorb, he]
  dsimp only
  split <;> rfl

/-! ## One turn -/

/-- The counter of skipped bytes does not change what follows a header that checks. -/
theorem turn_skipped (h : headerSize ≤ s.packet.length)
    (hc : (parseHeader s.packet).expected = (parseHeader s.packet).chksum) :
    turn { s with skipped := 0 } [] = turn s [] := by
  rcases Nat.lt_or_ge s.packet.length (headerSize + (parseHeader s.packet).packetSize) with hl | hl
  · rw [turn_incomplete h hc hl]
    exact turn_incomplete (s := { s with skipped := 0 }) h hc hl
  · rw [turn_whole hc hl]
    exact turn_whole (s := { s with skipped := 0 }) hc hl []

/-- **A turn over chunks is a turn over all the bytes at once**, unless it times out. -/
theorem turn_absorb
    {r : Option Outcome} (h : turn s sub = (r, s', sub')) (hr : r ≠ some .timeout) :
    turn (absorb s sub) [] = (r, absorb s' sub', []) := by
  rw [turn] at h
  split at h
  · cases h; exact absurd rfl hr
  · rename_i h₁
    cases h
    obtain ⟨hlt, hnil⟩ := (readPacket_spec h₁).shutdown rfl
    rw [← absorb_readPacket h₁, hnil, absorb_nil]
    exact turn_short hlt
  · rename_i s₁ sub₁ h₁
    have hle := (readPacket_spec h₁).filled rfl
    have ha : headerSize ≤ (absorb s₁ sub₁).packet.length := by
      rw [absorb, length_pending]
      exact Nat.le_add_right_of_le hle
    have hh := parseHeader_absorb hle sub₁
    rw [← absorb_readPacket h₁]
    dsimp only at h
    split at h
    · rename_i hc
      cases h
      rw [← hh] at hc
      rw [turn_corrupted ha hc]
      have hd : (absorb s₁ sub').packet.drop 1 = s₁.packet.drop 1 ++ received sub' :=
        List.drop_append_of_le_length (Nat.le_trans (by decide) hle)
      rw [hd]
      rfl
    · rename_i hc
      have hc' := Decidable.of_not_not hc
      rw [← hh] at hc'
      split at h
      · cases h; exact absurd rfl hr
      · rename_i s₂ sub₂ h₂
        cases h
        obtain ⟨hlt, hnil⟩ := (readPacket_spec h₂).shutdown rfl
        -- what was asked for is not there, even with all the bytes
        have hs : absorb s' [] = { absorb s₁ sub₁ with skipped := 0 } := by
          rw [← hnil]
          exact absorb_readPacket h₂
        have hl : (absorb s₁ sub₁).packet.length <
            headerSize + (parseHeader (absorb s₁ sub₁).packet).packetSize := by
          have he : s'.packet = (absorb s₁ sub₁).packet := by
            rw [absorb_nil] at hs
            rw [hs]
          rw [hh, ← he]
          exact hlt
        rw [turn_incomplete ha hc' hl, hnil, hs]
      · rename_i s₂ sub₂ h₂
        have hfull := (readPacket_spec h₂).filled rfl
        cases h
        have hs : absorb s₂ sub' = { absorb s₁ sub₁ with skipped := 0 } := absorb_readPacket h₂
        have hl : headerSize + (parseHeader (absorb s₁ sub₁).packet).packetSize ≤
            (absorb s₁ sub₁).packet.length := by
          have he : (absorb s₂ sub').packet = (absorb s₁ sub₁).packet := by rw [hs]
          rw [hh, ← he, absorb, length_pending]
          exact Nat.le_add_right_of_le hfull
        rw [turn_whole hc' hl, hh, ← hs, takePacket_absorb hfull]

/-- **A turn that times out leaves nothing undone and nothing to do again.** -/
theorem turn_absorb_timeout
    (h : turn s sub = (some .timeout, s', sub')) :
    turn (absorb s sub) [] = turn (absorb s' sub') [] := by
  rw [turn] at h
  split at h
  · rename_i h₁; cases h; rw [absorb_readPacket h₁]
  · cases h
  · rename_i s₁ sub₁ h₁
    have hle := (readPacket_spec h₁).filled rfl
    have ha : headerSize ≤ (absorb s₁ sub₁).packet.length := by
      rw [absorb, length_pending]
      exact Nat.le_add_right_of_le hle
    rw [← absorb_readPacket h₁]
    dsimp only at h
    split at h
    · cases h
    · rename_i hc
      have hc' := Decidable.of_not_not hc
      rw [← parseHeader_absorb hle sub₁] at hc'
      split at h
      · rename_i h₂
        cases h
        have hs : absorb s' sub' = { absorb s₁ sub₁ with skipped := 0 } := absorb_readPacket h₂
        rw [hs, turn_skipped ha hc']
      · cases h
      · injection h with h _
        exact absurd h (takePacket_ne _ _).1

/-- The end of the substream is met when nothing is left in it. -/
theorem turn_shutdown
    (h : turn s sub = (some .shutdown, s', sub')) : sub' = [] := by
  rw [turn] at h
  split at h
  · cases h
  · rename_i h₁; cases h; exact ((readPacket_spec h₁).shutdown rfl).2
  · dsimp only at h
    split at h
    · cases h
    · split at h
      · cases h
      · rename_i h₂; cases h; exact ((readPacket_spec h₂).shutdown rfl).2
      · injection h with h _
        exact absurd h (takePacket_ne _ _).2

/-! ## Call after call -/

theorem readContent_absorb {o : Outcome}
    (h : readContent s sub = (o, s', sub')) (ho : o ≠ .timeout) :
    readContent (absorb s sub) [] = (o, absorb s' sub', []) := by
  induction s, sub using readContent.induct with
  | case1 s sub o₁ s₁ sub₁ ht =>
    rw [readContent_done ht] at h
    cases h
    exact readContent_done (turn_absorb ht (fun he => ho (Option.some.inj he)))
  | case2 s sub s₁ sub₁ ht ih =>
    rw [readContent_again ht] at h
    rw [readContent_again (turn_absorb ht (by simp))]
    exact ih h

/-- **An interrupted call, resumed, is the call that was not interrupted.** -/
theorem readContent_absorb_timeout
    (h : readContent s sub = (.timeout, s', sub')) :
    readContent (absorb s sub) [] = readContent (absorb s' sub') [] := by
  induction s, sub using readContent.induct with
  | case1 s sub o₁ s₁ sub₁ ht =>
    rw [readContent_done ht] at h
    cases h
    rw [readContent, readContent, turn_absorb_timeout ht]
  | case2 s sub s₁ sub₁ ht ih =>
    rw [readContent_again ht] at h
    rw [readContent_again (turn_absorb ht (by simp))]
    exact ih h

theorem readContent_shutdown
    (h : readContent s sub = (.shutdown, s', sub')) : sub' = [] := by
  induction s, sub using readContent.induct with
  | case1 s sub o₁ s₁ sub₁ ht => rw [readContent_done ht] at h; cases h; exact turn_shutdown ht
  | case2 s sub s₁ sub₁ ht ih => rw [readContent_again ht] at h; exact ih h

/-- The contents found in a stream and a substream are those found in the absorbed stream. -/
theorem contents_absorb (s : Stream) (sub : Substream) :
    contents s sub = contents (absorb s sub) [] := by
  induction s, sub using contents.induct with
  | case1 s sub s' sub' h =>
    rw [contents_shutdown h, contents_shutdown (readContent_absorb h (by simp)),
      readContent_shutdown h, absorb_nil]
  | case2 s sub s' sub' h ih =>
    rw [contents_timeout h, ih, contents, contents, readContent_absorb_timeout h]
  | case3 s sub i c s' sub' h ih =>
    rw [contents_content h, contents_content (readContent_absorb h (by simp)), ih]

/-- Any two ways of receiving the same bytes are the same. -/
theorem contents_congr (h : received sub = received sub') :
    contents s sub = contents s sub' := by
  rw [contents_absorb s sub, contents_absorb s sub', absorb, absorb, pending, pending, h]

/--
**What a stream decodes depends on the bytes it receives alone.** Whatever its
state, however the bytes are cut into chunks and wherever reads time out, the
successive calls decode what they decode when everything comes in one chunk, and
end in the same state. A call that times out has consumed bytes at the front
only, and resumed with the rest it gives what it would have given uninterrupted.
-/
theorem readAll_independent_of_chunks (reg : Registry) (s : Stream) (sub : Substream) :
    readAll reg s sub = readAll reg s [⟨received sub, false⟩] ∧
      ∀ s' sub', readAny reg s sub = (.timeout, s', sub') →
        pending s' sub' <:+ pending s sub ∧
          readAny reg (absorb s sub) [] = readAny reg (absorb s' sub') [] := by
  constructor
  · have hone : received sub = received [⟨received sub, false⟩] := by simp [received]
    rw [readAll_eq_contents, readAll_eq_contents, contents_congr hone]
  · intro s' sub' h
    obtain ⟨o, s₁, sub₁, ho⟩ : ∃ o s₁ sub₁, readContent s sub = (o, s₁, sub₁) := ⟨_, _, _, rfl⟩
    rw [readAny, ho] at h
    injection h with hr h
    cases h
    rw [result_timeout hr] at ho
    constructor
    · have hp := readContent_suffix s sub
      rwa [ho] at hp
    · rw [readAny, readAny, readContent_absorb_timeout ho]

/-- A header cut after its first byte, by a read that times out. -/
theorem readAll_independent_of_chunks_in_a_header :
    let sub : Substream := [⟨[0x12], true⟩, ⟨[0x34], false⟩]
    readAny (fun _ => none) Stream.init sub = (.timeout, ⟨[0x12], [], 0⟩, [⟨[0x34], false⟩]) ∧
      pending ⟨[0x12], [], 0⟩ [⟨[0x34], false⟩] <:+ pending Stream.init sub := by
  have h : readAny (fun _ => none) Stream.init [⟨[0x12], true⟩, ⟨[0x34], false⟩] =
      (.timeout, ⟨[0x12], [], 0⟩, [⟨[0x34], false⟩]) := by
    rw [readAny, readContent_done (by rfl)]
    rfl
  exact ⟨h, ((readAll_independent_of_chunks _ _ _).2 _ _ h).1⟩

end CentreonBroker.Bbdo
