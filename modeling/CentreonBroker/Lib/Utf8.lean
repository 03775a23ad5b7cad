import CentreonBroker.Lib.Bytes

/-!
# UTF-8

The byte strings that are UTF-8, by the table of the sequences that stand for a character: no form
is longer than needed, none stands for a surrogate, and none goes above the last code point. The
sequences are those that encode a character.

A text may be cut in front of any byte that does not continue a sequence.
-/

namespace CentreonBroker.Utf8

/-- A byte that continues a sequence. -/
def Tail (b : UInt8) : Prop := 0x80 ≤ b.toNat ∧ b.toNat ≤ 0xBF

instance : DecidablePred Tail := fun _ => inferInstanceAs (Decidable (_ ∧ _))

/-- The bytes of one character. -/
inductive Sequence : Bytes → Prop
  | one {a} : a.toNat ≤ 0x7F → Sequence [a]
  | two {a b} : 0xC2 ≤ a.toNat → a.toNat ≤ 0xDF → Tail b → Sequence [a, b]
  | three {a b c} : 0xE0 ≤ a.toNat → a.toNat ≤ 0xEF → Tail b → Tail c →
      (a.toNat = 0xE0 → 0xA0 ≤ b.toNat) → (a.toNat = 0xED → b.toNat ≤ 0x9F) → Sequence [a, b, c]
  | four {a b c d} : 0xF0 ≤ a.toNat → a.toNat ≤ 0xF4 → Tail b → Tail c → Tail d →
      (a.toNat = 0xF0 → 0x90 ≤ b.toNat) → (a.toNat = 0xF4 → b.toNat ≤ 0x8F) → Sequence [a, b, c, d]

/-- A text in UTF-8. -/
inductive Valid : Bytes → Prop
  | nil : Valid []
  | cons {s bs} : Sequence s → Valid bs → Valid (s ++ bs)

/-- A string, as its bytes. -/
def encode (s : String) : Bytes := s.toList.flatMap String.utf8EncodeChar

/-! ## Characters -/

theorem toNat_ofNat_of_lt {n : ℕ} (h : n < 256) : (UInt8.ofNat n).toNat = n := by
  rw [UInt8.toNat_ofNat']
  omega

theorem sequence_utf8EncodeChar (c : Char) : Sequence (String.utf8EncodeChar c) := by
  have hvalid : c.val.toNat < 0xD800 ∨ 0xDFFF < c.val.toNat ∧ c.val.toNat < 0x110000 := c.valid
  unfold String.utf8EncodeChar
  generalize c.val.toNat = v at hvalid
  simp only
  split
  · refine .one ?_
    rw [toNat_ofNat_of_lt (by omega)]
    omega
  · split
    · refine .two ?_ ?_ ⟨?_, ?_⟩ <;> rw [toNat_ofNat_of_lt (by omega)] <;> omega
    · split
      · refine .three ?_ ?_ ⟨?_, ?_⟩ ⟨?_, ?_⟩ ?_ ?_
        all_goals repeat rw [toNat_ofNat_of_lt (by omega)]
        all_goals omega
      · refine .four ?_ ?_ ⟨?_, ?_⟩ ⟨?_, ?_⟩ ⟨?_, ?_⟩ ?_ ?_
        all_goals repeat rw [toNat_ofNat_of_lt (by omega)]
        all_goals omega

/-! ## Texts -/

theorem Sequence.valid {s : Bytes} (h : Sequence s) : Valid s := by
  have hcons := Valid.cons h .nil
  rw [List.append_nil] at hcons
  exact hcons

theorem Valid.append {as bs : Bytes} (ha : Valid as) (hb : Valid bs) : Valid (as ++ bs) := by
  induction ha with
  | nil => exact hb
  | cons hs _ ih =>
    rw [List.append_assoc]
    exact .cons hs ih

theorem Valid.flatMap {α : Type} {f : α → Bytes} {xs : List α} (h : ∀ x ∈ xs, Valid (f x)) :
    Valid (xs.flatMap f) := by
  induction xs with
  | nil => exact .nil
  | cons x xs ih =>
    rw [List.flatMap_cons]
    exact (h x List.mem_cons_self).append (ih fun y hy => h y (List.mem_cons_of_mem x hy))

theorem valid_encode (s : String) : Valid (encode s) :=
  Valid.flatMap fun c _ => (sequence_utf8EncodeChar c).valid

/-- A sequence starts with a byte that continues none, and goes on with bytes that do. -/
theorem Sequence.shape {s : Bytes} (h : Sequence s) :
    ∃ a bs, s = a :: bs ∧ ¬ Tail a ∧ ∀ b ∈ bs, Tail b := by
  have hhead : ∀ {a : UInt8}, a.toNat ≤ 0x7F ∨ 0xC0 ≤ a.toNat → ¬ Tail a := by
    rintro a ha ⟨hlow, hhigh⟩
    omega
  cases h with
  | one ha => exact ⟨_, [], rfl, hhead (.inl ha), by simp⟩
  | two ha _ hb =>
    refine ⟨_, _, rfl, hhead (.inr (by omega)), ?_⟩
    simpa using hb
  | three ha _ hb hc =>
    refine ⟨_, _, rfl, hhead (.inr (by omega)), ?_⟩
    simpa using ⟨hb, hc⟩
  | four ha _ hb hc hd =>
    refine ⟨_, _, rfl, hhead (.inr (by omega)), ?_⟩
    simpa using ⟨hb, hc, hd⟩

theorem Valid.head {bs : Bytes} (h : Valid bs) : ∀ b ∈ bs.head?, ¬ Tail b := by
  cases h with
  | nil => simp
  | cons hs _ =>
    obtain ⟨a, tails, rfl, ha, -⟩ := hs.shape
    intro b hb
    cases hb
    exact ha

/-- A text that goes on behind a sequence, or stops in it. -/
theorem append_eq_append_cases {s bs l m : Bytes} (h : s ++ bs = l ++ m) :
    (∃ l', l = s ++ l' ∧ bs = l' ++ m) ∨ ∃ m', m' ≠ [] ∧ s = l ++ m' ∧ m = m' ++ bs := by
  rcases List.append_eq_append_iff.mp h with ⟨l', hl, hbs⟩ | ⟨m', hs, hm⟩
  · exact .inl ⟨l', hl, hbs⟩
  · cases m' with
    | nil =>
      rw [List.append_nil] at hs
      exact .inl ⟨[], by rw [hs, List.append_nil], hm.symm⟩
    | cons b m' => exact .inr ⟨b :: m', List.cons_ne_nil b m', hs, hm⟩

/-- **A cut in front of a byte that starts a sequence**, or at the end, leaves two texts. -/
theorem Valid.cut {l m : Bytes} (h : Valid (l ++ m)) (hm : ∀ b ∈ m.head?, ¬ Tail b) :
    Valid l ∧ Valid m := by
  generalize hbs : l ++ m = bs at h
  induction h generalizing l with
  | nil =>
    obtain ⟨rfl, rfl⟩ := List.append_eq_nil_iff.mp hbs
    exact ⟨.nil, .nil⟩
  | cons hs hvalid ih =>
    rename_i s bs
    rcases append_eq_append_cases hbs.symm with ⟨l', rfl, hrest⟩ | ⟨m', hne, hsplit, rfl⟩
    · obtain ⟨hl, hm⟩ := ih hrest.symm
      exact ⟨.cons hs hl, hm⟩
    · obtain ⟨a, tails, hshape, -, htails⟩ := hs.shape
      cases m' with
      | nil => exact absurd rfl hne
      | cons b m' =>
        have hb : ¬ Tail b := hm b rfl
        cases l with
        | nil =>
          rw [List.nil_append] at hsplit
          rw [← hsplit]
          exact ⟨.nil, .cons hs hvalid⟩
        | cons x l =>
          -- the cut would be inside of the sequence
          rw [hshape] at hsplit
          have hmem : b ∈ tails := by
            rw [(List.cons.inj hsplit).2]
            exact List.mem_append_right l List.mem_cons_self
          exact absurd (htails b hmem) hb

/-- No sequence is the beginning of another one. -/
theorem Sequence.unique {s s' bs bs' : Bytes} (h : Sequence s) (h' : Sequence s')
    (heq : s ++ bs = s' ++ bs') : s = s' ∧ bs = bs' := by
  have hlength : s.length = s'.length := by
    cases h with
    | one ha | two ha ha' | three ha ha' | four ha ha' =>
      cases h' <;> simp only [List.cons_append, List.cons.injEq] at heq <;>
        obtain ⟨rfl, -⟩ := heq <;> first | rfl | omega
  exact List.append_inj heq hlength

/-- What stands behind a sequence of a text is a text. -/
theorem Valid.tail {s bs : Bytes} (h : Valid (s ++ bs)) (hs : Sequence s) : Valid bs := by
  generalize hall : s ++ bs = all at h
  cases h with
  | nil =>
    obtain ⟨-, rfl⟩ := List.append_eq_nil_iff.mp hall
    exact .nil
  | cons hs' hvalid =>
    obtain ⟨-, rfl⟩ := hs.unique hs' hall
    exact hvalid

/-- The longest beginning that is a text. -/
structure LongestPrefix (p bs : Bytes) : Prop where
  valid : Valid p
  isPrefix : p <+: bs
  longest : ∀ q, Valid q → q <+: bs → q.length ≤ p.length

/-- Where no sequence starts, the empty beginning is the longest one. -/
theorem LongestPrefix.nil {bs : Bytes} (h : ∀ s rest, Sequence s → bs ≠ s ++ rest) :
    LongestPrefix [] bs := by
  refine ⟨.nil, List.nil_prefix, ?_⟩
  intro q hq hprefix
  cases hq with
  | nil => exact Nat.le_refl 0
  | cons hs hrest =>
    rename_i s rest
    obtain ⟨t, ht⟩ := hprefix
    exact absurd (by rw [← ht, List.append_assoc]) (h s (rest ++ t) hs)

theorem LongestPrefix.cons {s p bs : Bytes} (hs : Sequence s) (h : LongestPrefix p bs) :
    LongestPrefix (s ++ p) (s ++ bs) := by
  obtain ⟨hvalid, hprefix, hlongest⟩ := h
  refine ⟨.cons hs hvalid, (List.prefix_append_right_inj s).mpr hprefix, ?_⟩
  intro q hq hqprefix
  cases hq with
  | nil => exact Nat.zero_le _
  | cons hs' hrest =>
    rename_i s' rest
    obtain ⟨t, ht⟩ := hqprefix
    rw [List.append_assoc] at ht
    obtain ⟨rfl, rfl⟩ := hs'.unique hs ht
    have hle := hlongest rest hrest (List.prefix_append rest t)
    rw [List.length_append, List.length_append]
    omega

end CentreonBroker.Utf8
