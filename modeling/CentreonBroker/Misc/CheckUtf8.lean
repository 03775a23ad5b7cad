import CentreonBroker.Lib.Utf8

/-!
# `check_string_utf8`

A string is tested for UTF-8 with masks on two, three and four bytes at once. From the first byte
where no sequence starts, it is converted from ISO-8859-15 or from CP-1252, and what is not a
character of these becomes an underscore.

The test reads up to three bytes behind a byte, whatever the length of the string. What stands behind
the terminating NUL is a parameter.
-/

namespace CentreonBroker.Misc

open Utf8

namespace CheckUtf8

/-- `*(it + i)`, where `rest` is the string from `it` on. -/
def byteAt (beyond : ℕ → UInt8) (rest : Bytes) (i : ℕ) : ℕ :=
  match rest[i]? with
  | some c => c.toNat
  | none => if i = rest.length then 0 else (beyond (i - rest.length - 1)).toNat

/-- One turn of the loop of the test: how far `it` goes, or that the loop ends before. -/
def step (beyond : ℕ → UInt8) (rest : Bytes) : Option ℕ :=
  let val := byteAt beyond rest 0
  if val &&& 0x80 = 0 then some 1
  else
    let val := val <<< 8 ||| byteAt beyond rest 1
    if val &&& 0xe0c0 = 0xc080 then
      let val := val &&& 0x1e00
      if val = 0 then none else some 2
    else
      let val := val <<< 8 ||| byteAt beyond rest 2
      if val &&& 0xf0c0c0 = 0xe08080 then
        let val := val &&& 0xf2000
        if val = 0 ∨ val = 0xd2000 then none else some 3
      else
        let val := val <<< 8 ||| byteAt beyond rest 3
        if val &&& 0xf8c0c0c0 = 0xf0808080 then
          let val := val &&& 0x7300000
          if val = 0 ∨ 0x4000000 < val then none else some 4
        else none

theorem one_le_of_step {beyond : ℕ → UInt8} {rest : Bytes} {n : ℕ} (h : step beyond rest = some n) :
    1 ≤ n := by
  simp only [step] at h
  repeat' split at h
  all_goals cases h
  all_goals decide

/-- The loop of the test: what is in front of `it` at its end, and from it on. -/
def scan (beyond : ℕ → UInt8) (done rest : Bytes) : Bytes × Bytes :=
  match rest with
  | [] => (done, [])
  | c :: cs =>
    match _h : step beyond (c :: cs) with
    | none => (done, c :: cs)
    | some n => scan beyond (done ++ (c :: cs).take n) ((c :: cs).drop n)
termination_by rest.length
decreasing_by
  have := one_le_of_step _h
  rw [List.length_drop, List.length_cons]
  omega

/-- Two bytes for a byte above 160. -/
def latin (c : UInt8) : Bytes := [(0xc0 : UInt8) ||| c >>> 6, (c &&& 0x3f) ||| 0x80]

/-- A byte of ISO-8859-15. -/
def iso8859 (c : UInt8) : Bytes :=
  if c < 128 then [c]
  else if c ≤ 160 then encode "_"
  else
    match c with
    | 0xa4 => encode "€"
    | 0xa6 => encode "Š"
    | 0xa8 => encode "š"
    | 0xb4 => encode "Ž"
    | 0xb8 => encode "ž"
    | 0xbc => encode "Œ"
    | 0xbd => encode "œ"
    | 0xbe => encode "Ÿ"
    | c => latin c

/-- A byte of CP-1252. -/
def cp1252 (c : UInt8) : Bytes :=
  if c < 128 then [c]
  else
    match c with
    | 128 => encode "€"
    | 129 => encode "_"
    | 141 => encode "_"
    | 143 => encode "_"
    | 144 => encode "_"
    | 157 => encode "_"
    | 130 => encode "‚"
    | 131 => encode "ƒ"
    | 132 => encode "„"
    | 133 => encode "…"
    | 134 => encode "†"
    | 135 => encode "‡"
    | 136 => encode "ˆ"
    | 137 => encode "‰"
    | 138 => encode "Š"
    | 139 => encode "‹"
    | 140 => encode "Œ"
    | 142 => encode "Ž"
    | 145 => encode "‘"
    | 146 => encode "’"
    | 147 => encode "“"
    | 148 => encode "”"
    | 149 => encode "•"
    | 150 => encode "–"
    | 151 => encode "—"
    | 152 => encode "˜"
    | 153 => encode "™"
    | 154 => encode "š"
    | 155 => encode "›"
    | 156 => encode "œ"
    | 158 => encode "ž"
    | 159 => encode "Ÿ"
    | c => latin c

/-- The two conversions. -/
inductive Charset where
  | iso8859
  | cp1252

/-- The loop that guesses the charset, or `none` where its assertion fails. -/
def guess (is_cp1252 is_iso8859 : Bool) : Bytes → Option Charset
  | [] => if is_cp1252 = is_iso8859 then some .iso8859 else none
  | c :: cs =>
    let is_iso8859 := if 126 < c ∧ c < 160 then false else is_iso8859
    let is_cp1252 :=
      if c &&& 128 ≠ 0 ∧ (c = 129 ∨ c = 141 ∨ c = 143 ∨ c = 144 ∨ c = 155) then false else is_cp1252
    if is_cp1252 = false then some .iso8859
    else if is_iso8859 = false then some .cp1252
    else guess is_cp1252 is_iso8859 cs

def convert : Charset → UInt8 → Bytes
  | .iso8859 => iso8859
  | .cp1252 => cp1252

end CheckUtf8

open CheckUtf8

/-- `misc::string::check_string_utf8`, or `none` where its assertion fails. -/
def check_string_utf8 (beyond : ℕ → UInt8) (str : Bytes) : Option Bytes :=
  match scan beyond [] str with
  | (_, []) => some str
  | (done, c :: cs) => (guess true true (c :: cs)).map fun charset =>
      done ++ (c :: cs).flatMap (convert charset)

namespace CheckUtf8

/-! ## The conversions -/

theorem forall_byte {P : UInt8 → Prop} (h : ∀ n : Fin 256, P (UInt8.ofNat n.val)) (c : UInt8) : P c := by
  have hc := h ⟨c.toNat, c.toNat_lt⟩
  rw [UInt8.ofNat_toNat] at hc
  exact hc

/-- A byte is written as a character. -/
theorem valid_latin {c : UInt8} (h : 128 ≤ c.toNat) : Valid (latin c) := by
  have hall : ∀ c : UInt8, 128 ≤ c.toNat → ((0xc0 : UInt8) ||| c >>> 6).toNat = 0xC0 + c.toNat / 64 ∧
      (c &&& 0x3f ||| 0x80).toNat = 0x80 + c.toNat % 64 := by
    refine forall_byte ?_
    decide +kernel
  obtain ⟨hlead, htail⟩ := hall c h
  have hc := c.toNat_lt
  refine (Sequence.two ?_ ?_ ⟨?_, ?_⟩).valid <;> omega

theorem valid_ascii {c : UInt8} (h : c.toNat < 128) : Valid [c] :=
  (Sequence.one (by omega)).valid

theorem valid_iso8859 (c : UInt8) : Valid (iso8859 c) := by
  unfold iso8859
  split
  · rename_i h
    exact valid_ascii (UInt8.lt_iff_toNat_lt.mp h)
  · rename_i h
    have hc : 128 ≤ c.toNat := by
      rw [UInt8.lt_iff_toNat_lt] at h
      exact Nat.le_of_not_lt h
    split
    · exact valid_encode _
    · split <;> first | exact valid_encode _ | exact valid_latin hc

theorem valid_cp1252 (c : UInt8) : Valid (cp1252 c) := by
  unfold cp1252
  split
  · rename_i h
    exact valid_ascii (UInt8.lt_iff_toNat_lt.mp h)
  · rename_i h
    have hc : 128 ≤ c.toNat := by
      rw [UInt8.lt_iff_toNat_lt] at h
      exact Nat.le_of_not_lt h
    split <;> first | exact valid_encode _ | exact valid_latin hc

theorem valid_convert (charset : Charset) (c : UInt8) : Valid (convert charset c) := by
  cases charset with
  | iso8859 => exact valid_iso8859 c
  | cp1252 => exact valid_cp1252 c

/-- **The assertion holds**: as long as the loop goes on, both charsets are possible. -/
theorem guess_isSome (cs : Bytes) : ∃ charset, guess true true cs = some charset := by
  induction cs with
  | nil => exact ⟨_, rfl⟩
  | cons c cs ih =>
    simp only [guess]
    by_cases hcp : c &&& 128 ≠ 0 ∧ (c = 129 ∨ c = 141 ∨ c = 143 ∨ c = 144 ∨ c = 155)
    · rw [if_pos hcp, if_pos rfl]
      exact ⟨_, rfl⟩
    · rw [if_neg hcp, if_neg (by decide)]
      by_cases hiso : 126 < c ∧ c < 160
      · rw [if_pos hiso, if_pos rfl]
        exact ⟨_, rfl⟩
      · rw [if_neg hiso, if_neg (by decide)]
        exact ih

/-! ## The masks -/

theorem shift_or {b : ℕ} (v : ℕ) (hb : b < 256) : v <<< 8 ||| b = v * 256 + b := by
  rw [← Nat.shiftLeft_add_eq_or_of_lt (i := 8) hb, Nat.shiftLeft_eq]

/-- A mask takes each byte on its own. -/
theorem land_pair {b n : ℕ} (v m : ℕ) (hb : b < 256) (hn : n < 256) :
    (v * 256 + b) &&& (m * 256 + n) = (v &&& m) * 256 + (b &&& n) := by
  have hdiv := @Nat.and_div_two_pow (v * 256 + b) (m * 256 + n) 8
  have hmod := @Nat.and_mod_two_pow (v * 256 + b) (m * 256 + n) 8
  rw [show (v * 256 + b) / 2 ^ 8 = v by omega, show (m * 256 + n) / 2 ^ 8 = m by omega] at hdiv
  rw [show (v * 256 + b) % 2 ^ 8 = b by omega, show (m * 256 + n) % 2 ^ 8 = n by omega] at hmod
  rw [← hdiv, ← hmod]
  omega

theorem forall_lt {P : ℕ → Prop} (h : ∀ n : Fin 256, P n.val) {b : ℕ} (hb : b < 256) : P b := h ⟨b, hb⟩

/-- What the masks say of the first byte. -/
theorem mask_lead {b : ℕ} (hb : b < 256) :
    (b &&& 0x80 = 0 ↔ b < 0x80) ∧ (b &&& 0xe0 = 0xc0 ↔ 0xC0 ≤ b ∧ b < 0xE0) ∧
      (b &&& 0xf0 = 0xe0 ↔ 0xE0 ≤ b ∧ b < 0xF0) ∧ (b &&& 0xf8 = 0xf0 ↔ 0xF0 ≤ b ∧ b < 0xF8) ∧
      b &&& 0x1e = b % 32 / 2 * 2 ∧ b &&& 0xf = b % 16 ∧ b &&& 0x7 = b % 8 :=
  forall_lt (P := fun b => (b &&& 0x80 = 0 ↔ b < 0x80) ∧ (b &&& 0xe0 = 0xc0 ↔ 0xC0 ≤ b ∧ b < 0xE0) ∧
    (b &&& 0xf0 = 0xe0 ↔ 0xE0 ≤ b ∧ b < 0xF0) ∧ (b &&& 0xf8 = 0xf0 ↔ 0xF0 ≤ b ∧ b < 0xF8) ∧
    b &&& 0x1e = b % 32 / 2 * 2 ∧ b &&& 0xf = b % 16 ∧ b &&& 0x7 = b % 8) (by decide +kernel) hb

/-- What they say of the others. -/
theorem mask_tail {b : ℕ} (hb : b < 256) :
    (b &&& 0xc0 = 0x80 ↔ 0x80 ≤ b ∧ b ≤ 0xBF) ∧ b &&& 0xc0 < 256 ∧ b &&& 0 = 0 ∧
      b &&& 0x20 = b / 32 % 2 * 32 ∧ b &&& 0x30 = b / 16 % 4 * 16 :=
  forall_lt (P := fun b => (b &&& 0xc0 = 0x80 ↔ 0x80 ≤ b ∧ b ≤ 0xBF) ∧ b &&& 0xc0 < 256 ∧ b &&& 0 = 0 ∧
    b &&& 0x20 = b / 32 % 2 * 32 ∧ b &&& 0x30 = b / 16 % 4 * 16) (by decide +kernel) hb

section

variable {b₀ b₁ b₂ b₃ : ℕ} (h₀ : b₀ < 256) (h₁ : b₁ < 256) (h₂ : b₂ < 256) (h₃ : b₃ < 256)

include h₀ h₁

theorem mask_two : ((b₀ * 256 + b₁) &&& 0xe0c0 = 0xc080 ↔
      (0xC0 ≤ b₀ ∧ b₀ < 0xE0) ∧ 0x80 ≤ b₁ ∧ b₁ ≤ 0xBF) ∧
    (b₀ * 256 + b₁) &&& 0x1e00 = b₀ % 32 / 2 * 2 * 256 := by
  have hlead := mask_lead h₀
  have htail := mask_tail h₁
  rw [← hlead.2.1, ← htail.1]
  constructor
  · rw [show 0xe0c0 = 0xe0 * 256 + 0xc0 by decide, land_pair b₀ _ h₁ (by decide)]
    omega
  · rw [show 0x1e00 = 0x1e * 256 + 0 by decide, land_pair b₀ _ h₁ (by decide), hlead.2.2.2.2.1,
      htail.2.2.1, Nat.add_zero]

include h₂

theorem mask_three : (((b₀ * 256 + b₁) * 256 + b₂) &&& 0xf0c0c0 = 0xe08080 ↔
      (0xE0 ≤ b₀ ∧ b₀ < 0xF0) ∧ (0x80 ≤ b₁ ∧ b₁ ≤ 0xBF) ∧ 0x80 ≤ b₂ ∧ b₂ ≤ 0xBF) ∧
    ((b₀ * 256 + b₁) * 256 + b₂) &&& 0xf2000 = (b₀ % 16 * 256 + b₁ / 32 % 2 * 32) * 256 := by
  have hlead := mask_lead h₀
  have htail := mask_tail h₁
  have htail' := mask_tail h₂
  rw [← hlead.2.2.1, ← htail.1, ← htail'.1]
  constructor
  · rw [show 0xf0c0c0 = (0xf0 * 256 + 0xc0) * 256 + 0xc0 by decide, land_pair _ _ h₂ (by decide),
      land_pair _ _ h₁ (by decide)]
    omega
  · rw [show 0xf2000 = (0xf * 256 + 0x20) * 256 + 0 by decide, land_pair _ _ h₂ (by decide),
      land_pair _ _ h₁ (by decide), hlead.2.2.2.2.2.1, htail.2.2.2.1, htail'.2.2.1, Nat.add_zero]

include h₃

theorem mask_four : ((((b₀ * 256 + b₁) * 256 + b₂) * 256 + b₃) &&& 0xf8c0c0c0 = 0xf0808080 ↔
      (0xF0 ≤ b₀ ∧ b₀ < 0xF8) ∧ (0x80 ≤ b₁ ∧ b₁ ≤ 0xBF) ∧ (0x80 ≤ b₂ ∧ b₂ ≤ 0xBF) ∧
        0x80 ≤ b₃ ∧ b₃ ≤ 0xBF) ∧
    (((b₀ * 256 + b₁) * 256 + b₂) * 256 + b₃) &&& 0x7300000 =
      ((b₀ % 8 * 256 + b₁ / 16 % 4 * 16) * 256) * 256 := by
  have hlead := mask_lead h₀
  have htail := mask_tail h₁
  have htail' := mask_tail h₂
  have htail'' := mask_tail h₃
  rw [← hlead.2.2.2.1, ← htail.1, ← htail'.1, ← htail''.1]
  constructor
  · rw [show 0xf8c0c0c0 = ((0xf8 * 256 + 0xc0) * 256 + 0xc0) * 256 + 0xc0 by decide,
      land_pair _ _ h₃ (by decide), land_pair _ _ h₂ (by decide), land_pair _ _ h₁ (by decide)]
    omega
  · rw [show 0x7300000 = ((0x7 * 256 + 0x30) * 256 + 0) * 256 + 0 by decide,
      land_pair _ _ h₃ (by decide), land_pair _ _ h₂ (by decide), land_pair _ _ h₁ (by decide),
      hlead.2.2.2.2.2.2, htail.2.2.2.2, htail'.2.2.1, htail''.2.2.1, Nat.add_zero, Nat.add_zero]

end

/-! ## The test -/

variable (beyond : ℕ → UInt8)

theorem byteAt_lt (rest : Bytes) (i : ℕ) : byteAt beyond rest i < 256 := by
  unfold byteAt
  split
  · exact UInt8.toNat_lt _
  · split
    · decide
    · exact UInt8.toNat_lt _

/-- The test in numbers. -/
theorem step_eq (rest : Bytes) {b₀ b₁ b₂ b₃ : ℕ}
    (h₀ : byteAt beyond rest 0 = b₀) (h₁ : byteAt beyond rest 1 = b₁) (h₂ : byteAt beyond rest 2 = b₂)
    (h₃ : byteAt beyond rest 3 = b₃) :
    step beyond rest =
      if b₀ < 0x80 then some 1
      else if (0xC0 ≤ b₀ ∧ b₀ < 0xE0) ∧ 0x80 ≤ b₁ ∧ b₁ ≤ 0xBF then if b₀ < 0xC2 then none else some 2
      else if (0xE0 ≤ b₀ ∧ b₀ < 0xF0) ∧ (0x80 ≤ b₁ ∧ b₁ ≤ 0xBF) ∧ 0x80 ≤ b₂ ∧ b₂ ≤ 0xBF then
        if b₀ = 0xE0 ∧ b₁ < 0xA0 ∨ b₀ = 0xED ∧ 0xA0 ≤ b₁ then none else some 3
      else if (0xF0 ≤ b₀ ∧ b₀ < 0xF8) ∧ (0x80 ≤ b₁ ∧ b₁ ≤ 0xBF) ∧ (0x80 ≤ b₂ ∧ b₂ ≤ 0xBF) ∧
          0x80 ≤ b₃ ∧ b₃ ≤ 0xBF then
        if b₀ = 0xF0 ∧ b₁ < 0x90 ∨ 0xF4 < b₀ ∨ b₀ = 0xF4 ∧ 0x90 ≤ b₁ then none else some 4
      else none := by
  have hlt₀ : b₀ < 256 := h₀ ▸ byteAt_lt beyond rest 0
  have hlt₁ : b₁ < 256 := h₁ ▸ byteAt_lt beyond rest 1
  have hlt₂ : b₂ < 256 := h₂ ▸ byteAt_lt beyond rest 2
  have hlt₃ : b₃ < 256 := h₃ ▸ byteAt_lt beyond rest 3
  obtain ⟨hhead₂, hlow₂⟩ := mask_two hlt₀ hlt₁
  obtain ⟨hhead₃, hlow₃⟩ := mask_three hlt₀ hlt₁ hlt₂
  obtain ⟨hhead₄, hlow₄⟩ := mask_four hlt₀ hlt₁ hlt₂ hlt₃
  simp only [step, h₀, h₁, h₂, h₃, shift_or _ hlt₁, shift_or _ hlt₂, shift_or _ hlt₃, (mask_lead hlt₀).1,
    hhead₂, hlow₂, hhead₃, hlow₃, hhead₄, hlow₄]
  refine if_congr Iff.rfl rfl ?_
  split
  · exact if_congr (by omega) rfl rfl
  · split
    · exact if_congr (by omega) rfl rfl
    · split
      · exact if_congr (by omega) rfl rfl
      · rfl

/-- **The loop goes on over a sequence**: what stands behind the string does not count. -/
theorem sequence_of_step {beyond : ℕ → UInt8} {rest : Bytes} (hne : rest ≠ []) {n : ℕ}
    (h : step beyond rest = some n) : Sequence (rest.take n) := by
  match rest, hne with
  | a :: cs, _ =>
    have hindex : ∀ {c : UInt8} {cs : Bytes} {i : ℕ}, byteAt beyond (c :: cs) (i + 1) = byteAt beyond cs i := by
      intro c cs i
      simp [byteAt, Nat.add_sub_add_right]
    have hnil : byteAt beyond [] 0 = 0 := rfl
    have hfirst : byteAt beyond (a :: cs) 0 = a.toNat := rfl
    rw [step_eq beyond (a :: cs) hfirst hindex (hindex.trans rfl) (hindex.trans rfl)] at h
    split at h
    · cases h
      exact .one (by omega)
    · split at h
      · rename_i hbytes
        split at h
        · cases h
        · cases h
          cases cs with
          | nil =>
            rw [hnil] at hbytes
            omega
          | cons b cs => exact .two (by omega) (by omega) hbytes.2
      · split at h
        · rename_i hbytes
          split at h
          · cases h
          · rename_i hbounds
            cases h
            cases cs with
            | nil =>
              rw [hnil] at hbytes
              omega
            | cons b cs =>
              rw [hindex] at hbytes
              cases cs with
              | nil =>
                rw [hnil] at hbytes
                omega
              | cons c cs =>
                have hb : byteAt beyond (b :: c :: cs) 0 = b.toNat := rfl
                rw [hb] at hbounds
                exact .three hbytes.1.1 (by omega) hbytes.2.1 hbytes.2.2 (by omega) (by omega)
        · split at h
          · rename_i hbytes
            split at h
            · cases h
            · rename_i hbounds
              cases h
              cases cs with
              | nil =>
                rw [hnil] at hbytes
                omega
              | cons b cs =>
                rw [hindex, hindex] at hbytes
                cases cs with
                | nil =>
                  rw [hnil] at hbytes
                  omega
                | cons c cs =>
                  rw [hindex] at hbytes
                  cases cs with
                  | nil =>
                    rw [hnil] at hbytes
                    omega
                  | cons d cs =>
                    have hb : byteAt beyond (b :: c :: d :: cs) 0 = b.toNat := rfl
                    rw [hb] at hbounds
                    exact .four hbytes.1.1 (by omega) hbytes.2.1 hbytes.2.2.1 hbytes.2.2.2 (by omega)
                      (by omega)
          · cases h

theorem step_of_sequence {s : Bytes} (hs : Sequence s) (bs : Bytes) :
    step beyond (s ++ bs) = some s.length := by
  rw [step_eq beyond (s ++ bs) rfl rfl rfl rfl]
  cases hs with
  | one ha =>
    rename_i a
    have h₀ : byteAt beyond ([a] ++ bs) 0 = a.toNat := rfl
    rw [h₀, if_pos (by omega)]
    rfl
  | two ha ha' hb =>
    rename_i a b
    obtain ⟨hb, hb'⟩ := hb
    have h₀ : byteAt beyond ([a, b] ++ bs) 0 = a.toNat := rfl
    have h₁ : byteAt beyond ([a, b] ++ bs) 1 = b.toNat := rfl
    rw [h₀, h₁, if_neg (by omega), if_pos (by omega), if_neg (by omega)]
    rfl
  | three ha ha' hb hc hlow hhigh =>
    rename_i a b c
    obtain ⟨hb, hb'⟩ := hb
    obtain ⟨hc, hc'⟩ := hc
    have h₀ : byteAt beyond ([a, b, c] ++ bs) 0 = a.toNat := rfl
    have h₁ : byteAt beyond ([a, b, c] ++ bs) 1 = b.toNat := rfl
    have h₂ : byteAt beyond ([a, b, c] ++ bs) 2 = c.toNat := rfl
    rw [h₀, h₁, h₂, if_neg (by omega), if_neg (by omega), if_pos (by omega), if_neg (by omega)]
    rfl
  | four ha ha' hb hc hd hlow hhigh =>
    rename_i a b c d
    obtain ⟨hb, hb'⟩ := hb
    obtain ⟨hc, hc'⟩ := hc
    obtain ⟨hd, hd'⟩ := hd
    have h₀ : byteAt beyond ([a, b, c, d] ++ bs) 0 = a.toNat := rfl
    have h₁ : byteAt beyond ([a, b, c, d] ++ bs) 1 = b.toNat := rfl
    have h₂ : byteAt beyond ([a, b, c, d] ++ bs) 2 = c.toNat := rfl
    have h₃ : byteAt beyond ([a, b, c, d] ++ bs) 3 = d.toNat := rfl
    rw [h₀, h₁, h₂, h₃, if_neg (by omega), if_neg (by omega), if_neg (by omega), if_pos (by omega),
      if_neg (by omega)]
    rfl

/-- What the test finds: the longest beginning that is UTF-8. -/
theorem scan_spec (done rest : Bytes) :
    ∃ p, LongestPrefix p rest ∧ (scan beyond done rest).1 = done ++ p ∧
      rest = p ++ (scan beyond done rest).2 := by
  fun_induction scan beyond done rest with
  | case1 done =>
    refine ⟨[], ⟨.nil, List.prefix_refl _, ?_⟩, (List.append_nil done).symm, rfl⟩
    intro q _ hq
    rw [List.prefix_nil.mp hq]
  | case2 done c cs hstep =>
    refine ⟨[], .nil ?_, (List.append_nil done).symm, rfl⟩
    intro s rest hs heq
    rw [heq, step_of_sequence beyond hs] at hstep
    cases hstep
  | case3 done c cs n hstep ih =>
    obtain ⟨p, hp, hdone, hrest⟩ := ih
    have hs := sequence_of_step (List.cons_ne_nil c cs) hstep
    have hlong := LongestPrefix.cons hs hp
    rw [List.take_append_drop] at hlong
    refine ⟨(c :: cs).take n ++ p, hlong, ?_, ?_⟩
    · rw [hdone, List.append_assoc]
    · rw [List.append_assoc, ← hrest, List.take_append_drop]

/-- What comes out: the string itself, or its longest beginning in UTF-8 and characters for the rest. -/
theorem check_string_utf8_cases (str : Bytes) :
    Valid str ∧ check_string_utf8 beyond str = some str ∨
    ∃ p rest charset, LongestPrefix p str ∧ rest ≠ [] ∧ str = p ++ rest ∧
      check_string_utf8 beyond str = some (p ++ rest.flatMap (convert charset)) := by
  obtain ⟨p, hp, hdone, hrest⟩ := scan_spec beyond [] str
  unfold check_string_utf8
  cases hscan : scan beyond [] str with
  | mk done rest =>
    rw [hscan] at hdone hrest
    obtain rfl : done = p := hdone
    obtain rfl : str = done ++ rest := hrest
    cases rest with
    | nil =>
      left
      rw [List.append_nil] at hp ⊢
      exact ⟨hp.valid, rfl⟩
    | cons c cs =>
      right
      obtain ⟨charset, hguess⟩ := guess_isSome (c :: cs)
      refine ⟨done, c :: cs, charset, hp, List.cons_ne_nil c cs, rfl, ?_⟩
      simp only [hguess]
      rfl

/--
**Normalisation to UTF-8.** The assertion holds, and what comes out is UTF-8. It is the string itself
exactly where this is UTF-8, it starts with the longest beginning of the string that is UTF-8, and
another call changes nothing more.
-/
theorem check_string_utf8_spec (beyond : ℕ → UInt8) (str : Bytes) :
    ∃ out, check_string_utf8 beyond str = some out ∧ Valid out ∧ (out = str ↔ Valid str) ∧
      (∃ p, LongestPrefix p str ∧ p <+: out) ∧
      ∀ beyond', check_string_utf8 beyond' out = some out := by
  have hsame : ∀ (beyond : ℕ → UInt8) (bs : Bytes), Valid bs → check_string_utf8 beyond bs = some bs := by
    intro beyond bs hbs
    rcases check_string_utf8_cases beyond bs with ⟨-, heq⟩ | ⟨p, rest, charset, hp, hne, heq, -⟩
    · exact heq
    · -- nothing would be left behind the longest beginning
      have hle := hp.longest bs hbs (List.prefix_refl bs)
      have hpos := List.length_pos_of_ne_nil hne
      rw [heq, List.length_append] at hle
      omega
  rcases check_string_utf8_cases beyond str with ⟨hvalid, heq⟩ | ⟨p, rest, charset, hp, hne, hstr, heq⟩
  · refine ⟨str, heq, hvalid, ⟨fun _ => hvalid, fun _ => rfl⟩, ⟨str, ?_, List.prefix_refl str⟩, ?_⟩
    · exact ⟨hvalid, List.prefix_refl str, fun q _ hq => hq.length_le⟩
    · intro beyond'
      exact hsame beyond' str hvalid
  · have hout : Valid (p ++ rest.flatMap (convert charset)) :=
      hp.valid.append (Valid.flatMap fun c _ => valid_convert charset c)
    refine ⟨_, heq, hout, ⟨fun hsame' => hsame' ▸ hout, ?_⟩, ⟨p, hp, List.prefix_append _ _⟩, ?_⟩
    · intro hvalid
      have hagain := hsame beyond str hvalid
      rw [heq] at hagain
      exact Option.some.inj hagain
    · intro beyond'
      exact hsame beyond' _ hout

end CheckUtf8

end CentreonBroker.Misc
