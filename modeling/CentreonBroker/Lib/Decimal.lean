import Mathlib

/-!
# Decimal numbers in strings

`strtol` in base 10 on one side, the digits that a number is printed with on the other.
A string that `strtol` converts whole still is one when digits are added to its end, and
what begins the digits of a number is the digits of a smaller one.
-/

namespace CentreonBroker.Decimal

/-- `isspace`, in the C locale. -/
def isSpace (c : Char) : Bool := c = ' ' ∨ (9 ≤ c.toNat ∧ c.toNat ≤ 13)

/-- The optional sign: whether it is a minus, and what follows. -/
def sign : List Char → Bool × List Char
  | [] => (false, [])
  | c :: s => if c = '-' then (true, s) else if c = '+' then (false, s) else (false, c :: s)

/-- A `long` on 64 bits, `ERANGE` included. -/
def clampLong (v : Int) : Int := max (-2 ^ 63) (min (2 ^ 63 - 1) v)

/-- `strtol(s, &endptr, 10)`, and what `endptr` leads to. -/
def strtol (s : List Char) : Int × List Char :=
  let (negative, r) := sign (s.dropWhile isSpace)
  let digits := r.takeWhile Char.isDigit
  if digits = [] then (0, s)
  else
    let v : Int := Nat.ofDigitChars 10 digits 0
    (clampLong (if negative then -v else v), r.dropWhile Char.isDigit)

/-- The conversion takes the string to its end. -/
def Converts (s : List Char) : Prop := (strtol s).2 = []

instance : DecidablePred Converts := fun _ => inferInstanceAs (Decidable (_ = _))

/-- What a number is printed with. -/
def digits (k : Nat) : List Char := Nat.toDigits 10 k

theorem digits_ne_nil (k : Nat) : digits k ≠ [] := Nat.toDigits_ne_nil

theorem isDigit_of_mem_digits {k : Nat} {c : Char} (h : c ∈ digits k) : c.isDigit :=
  Nat.isDigit_of_mem_toDigits (by decide) (by decide) h

theorem digits_inj {j k : Nat} (h : digits j = digits k) : j = k := by
  rw [← Nat.ofDigitChars_ten_toDigits (n := j), ← Nat.ofDigitChars_ten_toDigits (n := k)]
  exact congrArg (fun s => Nat.ofDigitChars 10 s 0) h

/-- **What begins a number is a number**, and not a greater one. -/
theorem digits_of_prefix {v : List Char} (hv : v ≠ []) (k : Nat) (hk : 1 ≤ k)
    (h : v <+: digits k) : ∃ j, 1 ≤ j ∧ j ≤ k ∧ v = digits j := by
  induction k using Nat.strong_induction_on with
  | _ k ih =>
    by_cases hlt : k < 10
    · refine ⟨k, hk, Nat.le_refl k, ?_⟩
      rw [digits, Nat.toDigits_of_lt_base hlt] at h ⊢
      rcases List.prefix_cons_iff.mp h with h | ⟨t, h, ht⟩
      · exact absurd h hv
      · rw [h, List.prefix_nil.mp ht]
    · have hk10 : digits k = digits (k / 10) ++ [Nat.digitChar (k % 10)] :=
        Nat.toDigits_of_base_le (by decide) (by omega)
      rw [hk10] at h
      rcases List.prefix_concat_iff.mp h with h | h
      · exact ⟨k, hk, Nat.le_refl k, h.trans hk10.symm⟩
      · obtain ⟨j, h1, h2, hj⟩ := ih (k / 10) (by omega) (by omega) h
        exact ⟨j, h1, by omega, hj⟩

/-! ## What is converted whole -/

theorem dropWhile_eq_nil_iff {p : Char → Bool} {s : List Char} :
    s.dropWhile p = [] ↔ ∀ c ∈ s, p c := by
  induction s with
  | nil => simp
  | cons c s ih =>
    rw [List.dropWhile_cons]
    split <;> simp_all

/-- What is to be made of digits, after the spaces and the sign. -/
def body (s : List Char) : List Char := (sign (s.dropWhile isSpace)).2

theorem converts_iff {s : List Char} (hs : s ≠ []) :
    Converts s ↔ body s ≠ [] ∧ ∀ c ∈ body s, c.isDigit := by
  rw [Converts, strtol, body]
  rcases sign (s.dropWhile isSpace) with ⟨negative, r⟩
  dsimp only
  cases r with
  | nil => simp [hs]
  | cons c r =>
    by_cases hc : c.isDigit
    · rw [if_neg (by simp [hc]), dropWhile_eq_nil_iff]
      simp
    · rw [if_pos (by simp [hc])]
      simp [hs, hc]

theorem not_space_of_digit {c : Char} (h : c.isDigit) : isSpace c = false := by
  simp only [Char.isDigit, Bool.and_eq_true, decide_eq_true_eq, UInt32.le_iff_toNat_le,
    ge_iff_le] at h
  have h1 : 48 ≤ c.toNat := h.1
  simp only [isSpace, decide_eq_false_iff_not, not_or]
  constructor
  · rintro rfl
    exact absurd h1 (by decide)
  · omega

theorem not_sign_of_digit {c : Char} (h : c.isDigit) : c ≠ '-' ∧ c ≠ '+' := by
  constructor <;> rintro rfl <;> exact absurd h (by decide)

/-- Digits are neither spaces nor signs. -/
theorem body_append (u : List Char) {ds : List Char} (hd : ∀ c ∈ ds, c.isDigit) :
    body (u ++ ds) = body u ++ ds := by
  have hds : ds.dropWhile isSpace = ds := by
    cases ds with
    | nil => rfl
    | cons c ds => rw [List.dropWhile_cons, not_space_of_digit (hd c List.mem_cons_self)]; rfl
  have hsign : ∀ t, (sign (t ++ ds)).2 = (sign t).2 ++ ds := by
    intro t
    cases t with
    | cons c t => rw [List.cons_append, sign, sign]; split <;> [rfl; (split <;> rfl)]
    | nil =>
      cases ds with
      | nil => rfl
      | cons c ds =>
        obtain ⟨h1, h2⟩ := not_sign_of_digit (hd c List.mem_cons_self)
        show (sign (c :: ds)).2 = c :: ds
        rw [sign, if_neg h1, if_neg h2]
  rw [body, body, List.dropWhile_append, ← hsign, hds]
  split
  · rename_i h
    rw [List.isEmpty_iff.mp h]
    rfl
  · rfl

theorem converts_of_digits {ds : List Char} (hne : ds ≠ []) (hd : ∀ c ∈ ds, c.isDigit) :
    Converts ds := by
  have hb : body ds = ds := body_append [] hd
  exact (converts_iff hne).mpr (by rw [hb]; exact ⟨hne, hd⟩)

/-- **Other digits do as well**, as long as there are some. -/
theorem converts_append {u ds ds' : List Char} (hu : u ≠ []) (hd : ∀ c ∈ ds, c.isDigit)
    (hne : ds' ≠ []) (hd' : ∀ c ∈ ds', c.isDigit) (h : Converts (u ++ ds)) :
    Converts (u ++ ds') := by
  rw [converts_iff (by simp [hu]), body_append u hd] at h
  rw [converts_iff (by simp [hu]), body_append u hd']
  refine ⟨by simp [hne], fun c hc => ?_⟩
  rcases List.mem_append.mp hc with hc | hc
  · exact h.2 c (List.mem_append_left _ hc)
  · exact hd' c hc

end CentreonBroker.Decimal
