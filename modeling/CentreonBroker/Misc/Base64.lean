import CentreonBroker.Lib.Base64

/-!
# `base64_encode`

`misc::string::base64_encode` shifts every byte into one integer, and takes the digits out of it as
soon as there are six bits. The integer is never masked. Its high bits are lost, and no digit
depends on more than the last twelve of them.
-/

namespace CentreonBroker.Misc

open Base64 (digit pad encode decode alphabet)

namespace Base64Encode

/-- The variables of `base64_encode`. -/
structure State where
  retval : List Char
  val : BitVec 32
  valb : ℤ

/-- `b[(val >> n) & 0x3F]`. -/
def charAt (val : BitVec 32) (n : ℕ) : Char :=
  alphabet.getD (val.sshiftRight n &&& 0x3F#32).toNat pad

/-- The loop that takes out digits while there are six bits. -/
def emit (s : State) : State :=
  if 0 ≤ s.valb then
    emit { s with retval := s.retval ++ [charAt s.val s.valb.toNat], valb := s.valb - 6 }
  else s
termination_by (s.valb + 6).toNat

/-- One turn of the loop over the bytes. -/
def read (s : State) (c : UInt8) : State :=
  emit { s with val := (s.val <<< 8) + c.toBitVec.setWidth 32, valb := s.valb + 8 }

/-- The loop that fills up the last group. -/
def fill (retval : List Char) : List Char :=
  retval ++ List.replicate ((4 - retval.length % 4) % 4) pad

end Base64Encode

open Base64Encode

/-- `misc::string::base64_encode`. -/
def base64_encode (str : Bytes) : List Char :=
  let s := str.foldl read ⟨[], 0, -6⟩
  let retval :=
    if -6 < s.valb then s.retval ++ [charAt (s.val <<< 8) (s.valb + 8).toNat] else s.retval
  fill retval

namespace Base64Encode

/-! ## The integer -/

variable (val : BitVec 32)

/-- A digit depends on twelve bits at most. -/
theorem toNat_sshiftRight_and {n : ℕ} (hn : n ≤ 6) :
    (val.sshiftRight n &&& 0x3F#32).toNat = val.toNat / 2 ^ n % 64 := by
  have hshift : val.sshiftRight n &&& 0x3F#32 = (val >>> n) &&& 0x3F#32 := by
    apply BitVec.eq_of_getLsbD_eq
    intro i hi
    by_cases hlow : i < 6
    · rw [BitVec.getLsbD_and, BitVec.getLsbD_and, BitVec.getLsbD_sshiftRight,
        BitVec.getLsbD_ushiftRight]
      have hlt : n + i < 32 := by omega
      simp [hlt, Nat.not_le.mpr hi]
    · have hmask : (0x3F#32).getLsbD i = false := by
        have hall : ∀ j : Fin 32, ¬ j.val < 6 → (0x3F#32).getLsbD j.val = false := by decide
        exact hall ⟨i, hi⟩ hlow
      rw [BitVec.getLsbD_and, BitVec.getLsbD_and, hmask, Bool.and_false, Bool.and_false]
  rw [hshift, BitVec.toNat_and, BitVec.toNat_ushiftRight, Nat.shiftRight_eq_div_pow]
  exact Nat.and_two_pow_sub_one_eq_mod _ 6

theorem charAt_eq {n : ℕ} (hn : n ≤ 6) : charAt val n = digit (val.toNat / 2 ^ n % 64) := by
  rw [charAt, toNat_sshiftRight_and val hn]
  rfl

/-- The integer after one more byte. -/
theorem toNat_push (c : UInt8) :
    ((val <<< 8) + c.toBitVec.setWidth 32).toNat = (val.toNat * 256 + c.toNat) % 2 ^ 32 := by
  have hc := c.toNat_lt
  have hwidth : (c.toBitVec.setWidth 32).toNat = c.toNat := by
    rw [BitVec.toNat_setWidth, UInt8.toNat_toBitVec]
    omega
  rw [BitVec.toNat_add, BitVec.toNat_shiftLeft, hwidth, Nat.shiftLeft_eq]
  omega

/-! ## One byte after the other -/

variable (retval : List Char)

theorem emit_neg (val : BitVec 32) {n : ℤ} (h : n < 0) :
    emit ⟨retval, val, n⟩ = ⟨retval, val, n⟩ := by
  rw [emit, if_neg (Int.not_le.mpr h)]

theorem emit_nonneg (val : BitVec 32) {n : ℤ} (h : 0 ≤ n) :
    emit ⟨retval, val, n⟩ = emit ⟨retval ++ [charAt val n.toNat], val, n - 6⟩ := by
  rw [emit, if_pos h]

theorem read_eq (val : BitVec 32) (n : ℤ) (c : UInt8) :
    read ⟨retval, val, n⟩ c = emit ⟨retval, (val <<< 8) + c.toBitVec.setWidth 32, n + 8⟩ := rfl

/-- The first byte of a group: one digit, and two bits are left. -/
theorem read_first (val : BitVec 32) (a : UInt8) :
    ∃ val', read ⟨retval, val, -6⟩ a = ⟨retval ++ [digit (a.toNat / 4)], val', -4⟩ ∧
      val'.toNat % 4 = a.toNat % 4 := by
  have ha := a.toNat_lt
  have hval := toNat_push val a
  refine ⟨(val <<< 8) + a.toBitVec.setWidth 32, ?_, ?_⟩
  · rw [read_eq, emit_nonneg _ _ (by decide), emit_neg _ _ (by decide)]
    rw [show ((-6 : ℤ) + 8).toNat = 2 by decide, charAt_eq _ (by omega), hval]
    have hdigit : (val.toNat * 256 + a.toNat) % 2 ^ 32 / 2 ^ 2 % 64 = a.toNat / 4 := by omega
    rw [hdigit]
    rfl
  · rw [hval]
    omega

/-- The second byte: one digit, and four bits are left. -/
theorem read_second {val : BitVec 32} {r : ℕ} (hval : val.toNat % 4 = r)
    (b : UInt8) : ∃ val', read ⟨retval, val, -4⟩ b =
      ⟨retval ++ [digit (r * 16 + b.toNat / 16)], val', -2⟩ ∧ val'.toNat % 16 = b.toNat % 16 := by
  have hb := b.toNat_lt
  have hpush := toNat_push val b
  refine ⟨(val <<< 8) + b.toBitVec.setWidth 32, ?_, ?_⟩
  · rw [read_eq, emit_nonneg _ _ (by decide), emit_neg _ _ (by decide)]
    rw [show ((-4 : ℤ) + 8).toNat = 4 by decide, charAt_eq _ (by omega), hpush]
    have hdigit : (val.toNat * 256 + b.toNat) % 2 ^ 32 / 2 ^ 4 % 64 = r * 16 + b.toNat / 16 := by omega
    rw [hdigit]
    rfl
  · rw [hpush]
    omega

/-- The third byte: two digits, and nothing is left. -/
theorem read_third {val : BitVec 32} {r : ℕ} (hval : val.toNat % 16 = r)
    (c : UInt8) : ∃ val', read ⟨retval, val, -2⟩ c =
      ⟨retval ++ [digit (r * 4 + c.toNat / 64), digit (c.toNat % 64)], val', -6⟩ := by
  have hc := c.toNat_lt
  have hpush := toNat_push val c
  refine ⟨(val <<< 8) + c.toBitVec.setWidth 32, ?_⟩
  rw [read_eq, emit_nonneg _ _ (by decide), emit_nonneg _ _ (by decide), emit_neg _ _ (by decide)]
  rw [show ((-2 : ℤ) + 8).toNat = 6 by decide, show ((-2 : ℤ) + 8 - 6).toNat = 0 by decide,
    charAt_eq _ (by omega), charAt_eq _ (by omega), hpush]
  have hhigh : (val.toNat * 256 + c.toNat) % 2 ^ 32 / 2 ^ 6 % 64 = r * 4 + c.toNat / 64 := by omega
  have hlow : (val.toNat * 256 + c.toNat) % 2 ^ 32 / 2 ^ 0 % 64 = c.toNat % 64 := by omega
  rw [hhigh, hlow, List.append_assoc]
  rfl

/-- What is done after the loop. -/
def finish (s : State) : List Char :=
  fill (if -6 < s.valb then s.retval ++ [charAt (s.val <<< 8) (s.valb + 8).toNat] else s.retval)

theorem finish_eq (val : BitVec 32) (n : ℤ) : finish ⟨retval, val, n⟩ =
    fill (if -6 < n then retval ++ [charAt (val <<< 8) (n + 8).toNat] else retval) := rfl

theorem toNat_shiftLeft_eight : (val <<< 8).toNat = val.toNat * 256 % 2 ^ 32 := by
  rw [BitVec.toNat_shiftLeft, Nat.shiftLeft_eq]

/-- **Group after group**: from the end of a group, whatever the integer holds. -/
theorem finish_foldl (bs : Bytes) (retval : List Char) (hretval : retval.length % 4 = 0)
    (val : BitVec 32) : finish (bs.foldl read ⟨retval, val, -6⟩) = retval ++ encode bs := by
  match bs with
  | [] =>
    rw [List.foldl_nil, finish_eq, if_neg (by decide), fill, hretval]
    rfl
  | [a] =>
    obtain ⟨val₁, hread, hval₁⟩ := read_first retval val a
    have ha := a.toNat_lt
    have hlast := toNat_shiftLeft_eight val₁
    rw [List.foldl_cons, List.foldl_nil, hread, finish_eq, if_pos (by decide)]
    rw [show ((-4 : ℤ) + 8).toNat = 4 by decide, charAt_eq _ (by omega), hlast]
    have hdigit : val₁.toNat * 256 % 2 ^ 32 / 2 ^ 4 % 64 = a.toNat % 4 * 16 := by omega
    rw [hdigit, fill]
    simp only [List.length_append, List.length_cons, List.length_nil]
    rw [show (4 - (retval.length + (0 + 1) + (0 + 1)) % 4) % 4 = 2 by omega, List.append_assoc,
      List.append_assoc]
    rfl
  | [a, b] =>
    obtain ⟨val₁, hread, hval₁⟩ := read_first retval val a
    obtain ⟨val₂, hread', hval₂⟩ := read_second (retval ++ [digit (a.toNat / 4)]) hval₁ b
    have hb := b.toNat_lt
    have hlast := toNat_shiftLeft_eight val₂
    rw [List.foldl_cons, List.foldl_cons, List.foldl_nil, hread, hread', finish_eq, if_pos (by decide)]
    rw [show ((-2 : ℤ) + 8).toNat = 6 by decide, charAt_eq _ (by omega), hlast]
    have hdigit : val₂.toNat * 256 % 2 ^ 32 / 2 ^ 6 % 64 = b.toNat % 16 * 4 := by omega
    rw [hdigit, fill]
    simp only [List.length_append, List.length_cons, List.length_nil]
    rw [show (4 - (retval.length + (0 + 1) + (0 + 1) + (0 + 1)) % 4) % 4 = 1 by omega,
      List.append_assoc, List.append_assoc, List.append_assoc]
    rfl
  | a :: b :: c :: bs =>
    obtain ⟨val₁, hread, hval₁⟩ := read_first retval val a
    obtain ⟨val₂, hread', hval₂⟩ := read_second (retval ++ [digit (a.toNat / 4)]) hval₁ b
    obtain ⟨val₃, hread''⟩ := read_third
      (retval ++ [digit (a.toNat / 4)] ++ [digit (a.toNat % 4 * 16 + b.toNat / 16)]) hval₂ c
    rw [List.foldl_cons, List.foldl_cons, List.foldl_cons, hread, hread', hread'']
    rw [finish_foldl bs _ (by simp only [List.length_append, List.length_cons, List.length_nil]; omega)]
    simp only [List.append_assoc]
    rfl

/-- **Base 64.** The text is the one of groups of three bytes, filled up; it has four characters for
three bytes, and the bytes come back from it. -/
theorem base64_encode_eq (str : Bytes) : base64_encode str = encode str ∧
    (base64_encode str).length = 4 * ((str.length + 2) / 3) ∧
    Base64.decode (base64_encode str) = some str := by
  have heq : base64_encode str = encode str := finish_foldl str [] rfl 0
  refine ⟨heq, ?_, ?_⟩
  · rw [heq, Base64.length_encode]
  · rw [heq, Base64.decode_encode]

end Base64Encode

end CentreonBroker.Misc
