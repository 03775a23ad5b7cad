import CentreonBroker.Lib.Bytes

/-!
# Base 64

Three bytes are written as four digits of six bits. A last group of one or two bytes is filled up
with padding. A reader that takes groups of four characters finds the bytes again.
-/

namespace CentreonBroker.Base64

/-- The digits, by their values. -/
def alphabet : List Char :=
  "ABCDEFGHIJKLMNOPQRSTUVWXYZabcdefghijklmnopqrstuvwxyz0123456789+/".toList

def pad : Char := '='

def digit (n : ℕ) : Char := alphabet.getD n pad

/-- The value of a digit. -/
def value (c : Char) : Option ℕ := alphabet.idxOf? c

/-- The three bytes of a group, as four digits. -/
def group (a b c : UInt8) : List Char :=
  [digit (a.toNat / 4), digit (a.toNat % 4 * 16 + b.toNat / 16),
    digit (b.toNat % 16 * 4 + c.toNat / 64), digit (c.toNat % 64)]

def encode : Bytes → List Char
  | [] => []
  | [a] => [digit (a.toNat / 4), digit (a.toNat % 4 * 16), pad, pad]
  | [a, b] =>
    [digit (a.toNat / 4), digit (a.toNat % 4 * 16 + b.toNat / 16), digit (b.toNat % 16 * 4), pad]
  | a :: b :: c :: bs => group a b c ++ encode bs

/-- The bytes that groups of four characters stand for. -/
def decode : List Char → Option Bytes
  | [] => some []
  | w :: x :: y :: z :: cs => do
    let v₀ ← value w
    let v₁ ← value x
    if y = pad ∧ z = pad ∧ cs = [] then some [UInt8.ofNat (v₀ * 4 + v₁ / 16)]
    else
      let v₂ ← value y
      if z = pad ∧ cs = [] then
        some [UInt8.ofNat (v₀ * 4 + v₁ / 16), UInt8.ofNat (v₁ % 16 * 16 + v₂ / 4)]
      else
        let v₃ ← value z
        let bs ← decode cs
        some (UInt8.ofNat (v₀ * 4 + v₁ / 16) :: UInt8.ofNat (v₁ % 16 * 16 + v₂ / 4) ::
          UInt8.ofNat (v₂ % 4 * 64 + v₃) :: bs)
  | _ => none

/-! ## Digits -/

theorem alphabet_eq : alphabet = ['A', 'B', 'C', 'D', 'E', 'F', 'G', 'H', 'I', 'J', 'K', 'L', 'M',
    'N', 'O', 'P', 'Q', 'R', 'S', 'T', 'U', 'V', 'W', 'X', 'Y', 'Z', 'a', 'b', 'c', 'd', 'e', 'f',
    'g', 'h', 'i', 'j', 'k', 'l', 'm', 'n', 'o', 'p', 'q', 'r', 's', 't', 'u', 'v', 'w', 'x', 'y',
    'z', '0', '1', '2', '3', '4', '5', '6', '7', '8', '9', '+', '/'] :=
  String.toList_ofList

theorem length_alphabet : alphabet.length = 64 := by rw [alphabet_eq]; rfl

/-- No digit has two values, and the padding has none. -/
theorem nodup_alphabet : (pad :: alphabet).Nodup := by
  rw [alphabet_eq]
  exact List.Nodup.of_map Char.toNat (by decide +kernel)

theorem digit_eq {n : ℕ} (h : n < alphabet.length) : digit n = alphabet[n] :=
  List.getD_eq_getElem _ _ h

theorem value_digit {n : ℕ} (h : n < 64) : value (digit n) = some n := by
  have hn : n < alphabet.length := length_alphabet ▸ h
  have hnodup := (List.nodup_cons.mp nodup_alphabet).2
  rw [value, digit_eq hn, List.idxOf?_eq_some_iff]
  refine ⟨hn, rfl, fun j hj hsame => ?_⟩
  have hindex := hnodup.getElem_inj_iff.mp hsame
  omega

theorem digit_ne_pad {n : ℕ} (h : n < 64) : digit n ≠ pad := by
  have hn : n < alphabet.length := length_alphabet ▸ h
  intro hpad
  rw [digit_eq hn] at hpad
  exact (List.nodup_cons.mp nodup_alphabet).1 (hpad ▸ List.getElem_mem hn)

/-! ## There and back -/

/-- Four characters for three bytes, or for what is left of them. -/
theorem length_encode (bs : Bytes) : (encode bs).length = 4 * ((bs.length + 2) / 3) := by
  match bs with
  | [] => rfl
  | [a] => simp [encode]
  | [a, b] => simp [encode]
  | a :: b :: c :: bs =>
    have ih := length_encode bs
    simp only [encode, group, List.length_append, List.length_cons, List.length_nil, ih]
    omega

theorem ofNat_eq {n : ℕ} {a : UInt8} (h : n = a.toNat) : UInt8.ofNat n = a := by
  rw [h, UInt8.ofNat_toNat]

/-- **The bytes come back.** -/
theorem decode_encode (bs : Bytes) : decode (encode bs) = some bs := by
  match bs with
  | [] => rfl
  | [a] =>
    have ha := a.toNat_lt
    have hfirst : UInt8.ofNat (a.toNat / 4 * 4 + a.toNat % 4 * 16 / 16) = a := ofNat_eq (by omega)
    rw [encode, decode, value_digit (by omega), value_digit (by omega)]
    simp only [Option.bind_eq_bind, Option.bind_some, and_self, if_true, hfirst]
  | [a, b] =>
    have ha := a.toNat_lt
    have hb := b.toNat_lt
    have hne := digit_ne_pad (n := b.toNat % 16 * 4) (by omega)
    have hfirst : UInt8.ofNat (a.toNat / 4 * 4 + (a.toNat % 4 * 16 + b.toNat / 16) / 16) = a :=
      ofNat_eq (by omega)
    have hsecond : UInt8.ofNat ((a.toNat % 4 * 16 + b.toNat / 16) % 16 * 16 + b.toNat % 16 * 4 / 4) = b :=
      ofNat_eq (by omega)
    rw [encode, decode, value_digit (by omega), value_digit (by omega), value_digit (by omega)]
    simp only [Option.bind_eq_bind, Option.bind_some, hne, false_and, if_false, and_self, if_true,
      hfirst, hsecond]
  | a :: b :: c :: bs =>
    have ih := decode_encode bs
    have ha := a.toNat_lt
    have hb := b.toNat_lt
    have hc := c.toNat_lt
    have hne := digit_ne_pad (n := c.toNat % 64) (by omega)
    have hfirst : UInt8.ofNat (a.toNat / 4 * 4 + (a.toNat % 4 * 16 + b.toNat / 16) / 16) = a :=
      ofNat_eq (by omega)
    have hsecond : UInt8.ofNat ((a.toNat % 4 * 16 + b.toNat / 16) % 16 * 16 +
        (b.toNat % 16 * 4 + c.toNat / 64) / 4) = b := ofNat_eq (by omega)
    have hthird : UInt8.ofNat ((b.toNat % 16 * 4 + c.toNat / 64) % 4 * 64 + c.toNat % 64) = c :=
      ofNat_eq (by omega)
    rw [encode, group]
    simp only [List.cons_append, List.nil_append]
    rw [decode, value_digit (by omega), value_digit (by omega), value_digit (by omega),
      value_digit (by omega), ih]
    simp only [Option.bind_eq_bind, Option.bind_some, hne, false_and, and_false, if_false, hfirst,
      hsecond, hthird]

end CentreonBroker.Base64
