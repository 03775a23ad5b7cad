import CentreonBroker.Lib.Bytes

/-!
# A number at the beginning of a string

`strtod` takes the longest beginning of a string that is a decimal number, a hexadecimal number, an
infinity or a NaN. A scanner is local when it gets the same from a string alone and from this string
with more behind it, as long as the first character of this is in no number.
-/

namespace CentreonBroker.Strtod

/-- A `double`. The sign of a zero is not kept. -/
inductive Double where
  | nan
  | infinity (negative : Bool)
  | number (q : ℚ)
  deriving DecidableEq

namespace Double

def negate : Double → Double
  | nan => nan
  | infinity negative => infinity (!negative)
  | number q => number (-q)

/-- The nearest integer, and the even one of two. -/
def halfEven (q : ℚ) : ℤ :=
  let low := ⌊q⌋
  if q - low < 1 / 2 ∨ q - low = 1 / 2 ∧ low % 2 = 0 then low else low + 1

/-- The nearest `double`: 53 bits, and exponents from -1074. -/
def ofRat (q : ℚ) : Double :=
  let unit : ℚ := 2 ^ max (-1074) (Int.log 2 |q| - 52)
  let rounded := halfEven (q / unit) * unit
  if 2 ^ 1024 ≤ |rounded| then infinity (q < 0) else number rounded

theorem ofRat_ne_nan (q : ℚ) : ofRat q ≠ nan := by
  intro h
  unfold ofRat at h
  dsimp only at h
  split at h <;> cases h

end Double

/-! ## Characters -/

/-- `isspace`, in the C locale. -/
def isSpace (c : UInt8) : Bool := c == 0x20 || (0x09 ≤ c && c ≤ 0x0D)

def isDigit (c : UInt8) : Bool := 0x30 ≤ c && c ≤ 0x39

def lower (c : UInt8) : UInt8 := if 0x41 ≤ c && c ≤ 0x5A then c + 0x20 else c

def isHexDigit (c : UInt8) : Bool := isDigit c || (0x61 ≤ lower c && lower c ≤ 0x66)

/-- Letters, digits and `_`. -/
def isWord (c : UInt8) : Bool := isDigit c || (0x61 ≤ lower c && lower c ≤ 0x7A) || c == 0x5F

/-- What can be in a number: also `+`, `-`, `.`, `(` and `)`. -/
def isNumberChar (c : UInt8) : Bool :=
  isWord c || c == 0x2B || c == 0x2D || c == 0x2E || c == 0x28 || c == 0x29

def digitValue (c : UInt8) : ℕ :=
  if isDigit c then c.toNat - 0x30 else (lower c).toNat - 0x61 + 10

def digitsValue (base : ℕ) (ds : Bytes) : ℕ := ds.foldl (fun v c => base * v + digitValue c) 0

/-! ## Scanners -/

/-- A scanner takes the beginning of what it is given, or fails. -/
abbrev Scan := StateT Bytes Option

namespace Scan

def span (p : UInt8 → Bool) : Scan Bytes := fun s => some (s.takeWhile p, s.dropWhile p)

def char (p : UInt8 → Bool) : Scan UInt8
  | [] => none
  | c :: s => if p c then some (c, s) else none

/-- A word, in lower case or not. -/
def word : Bytes → Scan Unit
  | [] => pure ()
  | c :: w => do
    let _ ← char (lower · == c)
    word w

def require (p : Bool) : Scan Unit := fun s => if p then some ((), s) else none

end Scan

open Scan

/-- Whether there is a minus. -/
def sign : Scan Bool :=
  (do let _ ← char (· == 0x2D); pure true) <|> (do let _ ← char (· == 0x2B); pure false) <|> pure false

/-- The digits in front of the point and those behind it, of which there are some. -/
def mantissa (isDigit : UInt8 → Bool) : Scan (Bytes × Bytes) := do
  let whole ← span isDigit
  let fraction ← (do let _ ← char (· == 0x2E); span isDigit) <|> pure []
  require (whole ≠ [] || fraction ≠ [])
  pure (whole, fraction)

/-- The exponent, or 0 where there is none. -/
def exponent (marker : UInt8) : Scan ℤ :=
  (do
    let _ ← char (lower · == marker)
    let negative ← sign
    let ds ← span isDigit
    require (ds ≠ [])
    pure (if negative then -(digitsValue 10 ds : ℤ) else digitsValue 10 ds)) <|> pure 0

def decimal : Scan ℚ := do
  let (whole, fraction) ← mantissa isDigit
  let e ← exponent 0x65
  pure (digitsValue 10 (whole ++ fraction) * 10 ^ (e - fraction.length))

/-- The digits have four bits, and the exponent is one of two. -/
def hexadecimal : Scan ℚ := do
  let _ ← char (· == 0x30)
  let _ ← char (lower · == 0x78)
  let (whole, fraction) ← mantissa isHexDigit
  let e ← exponent 0x70
  pure (digitsValue 16 (whole ++ fraction) * 2 ^ (e - 4 * fraction.length))

/-- `inf` or `infinity`. -/
def infinite : Scan Double := do
  word [0x69, 0x6E, 0x66]
  word [0x69, 0x6E, 0x69, 0x74, 0x79] <|> pure ()
  pure (.infinity false)

/-- `nan`, and a word between parentheses. -/
def notNumber : Scan Double := do
  word [0x6E, 0x61, 0x6E]
  (do
    let _ ← char (· == 0x28)
    let _ ← span isWord
    let _ ← char (· == 0x29)
    pure ()) <|> pure ()
  pure .nan

def unsigned : Scan Double :=
  infinite <|> notNumber <|> (Double.ofRat <$> hexadecimal) <|> (Double.ofRat <$> decimal)

def signed : Scan Double := do
  let negative ← sign
  let v ← unsigned
  pure (if negative then v.negate else v)

/-- `strtod`: the value, and what `endptr` leads to. -/
def strtod (s : Bytes) : Double × Bytes :=
  match signed (s.dropWhile isSpace) with
  | none => (.number 0, s)
  | some (v, rest) => (v, rest)

/-! ## What a scanner gets does not depend on what is behind it -/

/-- It is the end, or a character that is in no number. -/
def Stops (r : Bytes) : Prop := ∀ c ∈ r.head?, isNumberChar c = false

/-- The same with more behind it. -/
def Local {α : Type} (f : Scan α) : Prop :=
  ∀ s r, Stops r → f (s ++ r) = (f s).map fun x => (x.1, x.2 ++ r)

/-- It takes the beginning. -/
def Suffix {α : Type} (f : Scan α) : Prop := ∀ s x, f s = some x → x.2 <:+ s

theorem takeWhile_append_stop {α : Type} {p : α → Bool} (s : List α) {r : List α}
    (h : ∀ c ∈ r.head?, p c = false) : (s ++ r).takeWhile p = s.takeWhile p := by
  induction s with
  | nil =>
    cases r with
    | nil => rfl
    | cons c r => simp [h c rfl]
  | cons c s ih =>
    rw [List.cons_append, List.takeWhile_cons, List.takeWhile_cons, ih]

theorem dropWhile_append_stop {α : Type} {p : α → Bool} (s : List α) {r : List α}
    (h : ∀ c ∈ r.head?, p c = false) : (s ++ r).dropWhile p = s.dropWhile p ++ r := by
  induction s with
  | nil =>
    cases r with
    | nil => rfl
    | cons c r => simp [h c rfl]
  | cons c s ih =>
    rw [List.cons_append, List.dropWhile_cons, List.dropWhile_cons, ih]
    split <;> rfl

namespace Local

variable {α β : Type}

theorem pure (a : α) : Local (Pure.pure a : Scan α) := fun _ _ _ => rfl

theorem bind {f : Scan α} {g : α → Scan β} (hf : Local f) (hg : ∀ a, Local (g a)) :
    Local (f >>= g) := by
  intro s r hr
  show (f (s ++ r)).bind (fun x => g x.1 x.2) = ((f s).bind fun x => g x.1 x.2).map _
  rw [hf s r hr]
  cases h : f s with
  | none => rfl
  | some x => exact hg x.1 x.2 r hr

theorem orElse {f g : Scan α} (hf : Local f) (hg : Local g) : Local (f <|> g) := by
  intro s r hr
  show (f (s ++ r) <|> g (s ++ r)) = (f s <|> g s).map _
  rw [hf s r hr, hg s r hr]
  cases h : f s <;> rfl

theorem map {f : Scan α} (hf : Local f) (g : α → β) : Local (g <$> f) := by
  intro s r hr
  show (f (s ++ r)).bind (fun x => some (g x.1, x.2)) = ((f s).bind fun x => some (g x.1, x.2)).map _
  rw [hf s r hr]
  cases h : f s <;> rfl

theorem span {p : UInt8 → Bool} (hp : ∀ c, p c = true → isNumberChar c = true) :
    Local (Scan.span p) := by
  intro s r hr
  have hstop : ∀ c ∈ r.head?, p c = false := by
    intro c hc
    have hnumber := hr c hc
    cases h : p c with
    | false => rfl
    | true =>
      rw [hp c h] at hnumber
      cases hnumber
  show some _ = some _
  rw [takeWhile_append_stop s hstop, dropWhile_append_stop s hstop]

theorem char {p : UInt8 → Bool} (hp : ∀ c, p c = true → isNumberChar c = true) :
    Local (Scan.char p) := by
  intro s r hr
  cases s with
  | cons c s =>
    show (if p c then _ else _) = Option.map _ (if p c then _ else _)
    split <;> rfl
  | nil =>
    cases r with
    | nil => rfl
    | cons c r =>
      have hnumber := hr c rfl
      show (if p c then _ else _) = none
      rw [if_neg]
      intro h
      rw [hp c h] at hnumber
      cases hnumber

theorem require (p : Bool) : Local (Scan.require p) := by
  intro s r _
  show (if p then _ else _) = Option.map _ (if p then _ else _)
  split <;> rfl

theorem number_of_word {c : UInt8} (h : isWord c = true) : isNumberChar c = true := by
  simp [isNumberChar, h]

theorem word_of_lower {c d : UInt8} (hc : 0x61 ≤ c ∧ c ≤ 0x7A) (h : lower d = c) : isWord d = true := by
  simp [isWord, h, hc]

theorem letter {c : UInt8} (hc : 0x61 ≤ c ∧ c ≤ 0x7A) : Local (Scan.char (lower · == c)) := by
  refine char ?_
  intro d hd
  exact number_of_word (word_of_lower hc (by simpa using hd))

/-- A word of letters. -/
theorem word {w : Bytes} (hw : w.all (fun c => 0x61 ≤ c && c ≤ 0x7A) = true) : Local (Scan.word w) := by
  induction w with
  | nil => exact pure ()
  | cons c w ih =>
    rw [List.all_cons, Bool.and_eq_true, Bool.and_eq_true] at hw
    exact bind (letter ⟨of_decide_eq_true hw.1.1, of_decide_eq_true hw.1.2⟩) fun _ => ih hw.2

theorem one {c : UInt8} (hc : isNumberChar c = true) : Local (Scan.char (· == c)) := by
  refine char ?_
  intro d hd
  obtain rfl : d = c := by simpa using hd
  exact hc

theorem digit {c : UInt8} (h : isDigit c = true) : isNumberChar c = true :=
  number_of_word (by simp [isWord, h])

theorem hexDigit {c : UInt8} (h : isHexDigit c = true) : isNumberChar c = true := by
  refine number_of_word ?_
  rcases Bool.or_eq_true_iff.mp h with h | h
  · simp [isWord, h]
  · simp only [Bool.and_eq_true, decide_eq_true_eq] at h
    exact word_of_lower ⟨h.1, UInt8.le_trans h.2 (by decide)⟩ rfl

theorem sign : Local Strtod.sign :=
  orElse (bind (one (by decide)) fun _ => pure true)
    (orElse (bind (one (by decide)) fun _ => pure false) (pure false))

theorem mantissa {isDigit : UInt8 → Bool} (h : ∀ c, isDigit c = true → isNumberChar c = true) :
    Local (Strtod.mantissa isDigit) := by
  refine bind (span h) fun whole => ?_
  refine bind (orElse (bind (one (by decide)) fun _ => span h) (pure [])) fun fraction => ?_
  exact bind (require _) fun _ => pure (whole, fraction)

theorem exponent {marker : UInt8} (h : 0x61 ≤ marker ∧ marker ≤ 0x7A) :
    Local (Strtod.exponent marker) := by
  refine orElse (bind (letter h) fun _ => ?_) (pure 0)
  refine bind sign fun negative => bind (span fun c => digit) fun ds => ?_
  exact bind (require _) fun _ => pure _

theorem decimal : Local Strtod.decimal :=
  bind (mantissa fun c => digit) fun _ => bind (exponent (by decide)) fun _ => pure _

theorem hexadecimal : Local Strtod.hexadecimal := by
  refine bind (one (by decide)) fun _ => bind (letter (by decide)) fun _ => ?_
  exact bind (mantissa fun c => hexDigit) fun _ => bind (exponent (by decide)) fun _ => pure _

theorem infinite : Local Strtod.infinite :=
  bind (word rfl) fun _ => bind (orElse (word rfl) (pure ())) fun _ => pure _

theorem notNumber : Local Strtod.notNumber := by
  refine bind (word rfl) fun _ => bind (orElse (bind (one (by decide)) fun _ => ?_) (pure ()))
    fun _ => pure _
  exact bind (span fun c => number_of_word) fun _ => bind (one (by decide)) fun _ => pure ()

theorem unsigned : Local Strtod.unsigned :=
  orElse infinite (orElse notNumber (orElse (map hexadecimal _) (map decimal _)))

theorem signed : Local Strtod.signed := bind sign fun _ => bind unsigned fun _ => pure _

end Local

/-- **What `strtod` gets does not depend on what is behind a character that is in no number.** -/
theorem strtod_append {s r : Bytes} (hspace : ∀ c ∈ (s ++ r).head?, isSpace c = false) (hr : Stops r) :
    strtod (s ++ r) = ((strtod s).1, (strtod s).2 ++ r) := by
  have hskip : ∀ t : Bytes, (∀ c ∈ t.head?, isSpace c = false) → t.dropWhile isSpace = t := by
    intro t ht
    cases t with
    | nil => rfl
    | cons c t => rw [List.dropWhile_cons, ht c rfl, if_neg Bool.false_ne_true]
  have hs : ∀ c ∈ s.head?, isSpace c = false := by
    intro c hc
    cases s with
    | nil => cases hc
    | cons d s => exact hspace c hc
  rw [strtod, strtod, hskip _ hspace, hskip s hs, Local.signed s r hr]
  cases signed s <;> rfl

/-! ## What is left is the end of what there was -/

namespace Suffix

variable {α β : Type}

theorem pure (a : α) : Suffix (Pure.pure a : Scan α) := by
  intro s x h
  cases h
  exact List.suffix_refl s

theorem bind {f : Scan α} {g : α → Scan β} (hf : Suffix f) (hg : ∀ a, Suffix (g a)) :
    Suffix (f >>= g) := by
  intro s x h
  obtain ⟨y, hy, hx⟩ := Option.bind_eq_some_iff.mp h
  exact (hg y.1 y.2 x hx).trans (hf s y hy)

theorem orElse {f g : Scan α} (hf : Suffix f) (hg : Suffix g) : Suffix (f <|> g) := by
  intro s x h
  change (f s <|> g s) = some x at h
  cases hfs : f s with
  | some y =>
    rw [hfs] at h
    obtain rfl : y = x := Option.some.inj h
    exact hf s y hfs
  | none =>
    rw [hfs] at h
    exact hg s x h

theorem map {f : Scan α} (hf : Suffix f) (g : α → β) : Suffix (g <$> f) := by
  intro s x h
  obtain ⟨⟨a, rest⟩, ha, hx⟩ := Option.bind_eq_some_iff.mp h
  obtain rfl := Option.some.inj hx
  exact hf s (a, rest) ha

theorem span (p : UInt8 → Bool) : Suffix (Scan.span p) := by
  intro s x h
  cases h
  exact List.dropWhile_suffix p

theorem char (p : UInt8 → Bool) : Suffix (Scan.char p) := by
  intro s x h
  cases s with
  | nil => cases h
  | cons c s =>
    change (if p c then _ else _) = some x at h
    split at h
    · cases h
      exact List.suffix_cons c s
    · cases h

theorem require (p : Bool) : Suffix (Scan.require p) := by
  intro s x h
  change (if p then _ else _) = some x at h
  split at h
  · cases h
    exact List.suffix_refl s
  · cases h

theorem word (w : Bytes) : Suffix (Scan.word w) := by
  induction w with
  | nil => exact pure ()
  | cons c w ih => exact bind (char _) fun _ => ih

theorem sign : Suffix Strtod.sign :=
  orElse (bind (char _) fun _ => pure true) (orElse (bind (char _) fun _ => pure false) (pure false))

theorem mantissa (isDigit : UInt8 → Bool) : Suffix (Strtod.mantissa isDigit) :=
  bind (span _) fun _ => bind (orElse (bind (char _) fun _ => span _) (pure [])) fun _ =>
    bind (require _) fun _ => pure _

theorem exponent (marker : UInt8) : Suffix (Strtod.exponent marker) :=
  orElse (bind (char _) fun _ => bind sign fun _ => bind (span _) fun _ => bind (require _) fun _ =>
    pure _) (pure 0)

theorem decimal : Suffix Strtod.decimal :=
  bind (mantissa _) fun _ => bind (exponent _) fun _ => pure _

theorem hexadecimal : Suffix Strtod.hexadecimal :=
  bind (char _) fun _ => bind (char _) fun _ => bind (mantissa _) fun _ => bind (exponent _) fun _ =>
    pure _

theorem infinite : Suffix Strtod.infinite :=
  bind (word _) fun _ => bind (orElse (word _) (pure ())) fun _ => pure _

theorem notNumber : Suffix Strtod.notNumber :=
  bind (word _) fun _ => bind (orElse (bind (char _) fun _ => bind (span _) fun _ =>
    bind (char _) fun _ => pure ()) (pure ())) fun _ => pure _

theorem signed : Suffix Strtod.signed :=
  bind sign fun _ => bind (orElse infinite (orElse notNumber (orElse (map hexadecimal _)
    (map decimal _)))) fun _ => pure _

end Suffix

theorem strtod_suffix (s : Bytes) : (strtod s).2 <:+ s := by
  rw [strtod]
  cases h : signed (s.dropWhile isSpace) with
  | none => exact List.suffix_refl s
  | some x => exact (Suffix.signed _ x h).trans (List.dropWhile_suffix isSpace)

/-! ## Digits -/

theorem bind_some {α β : Type} {f : Scan α} {g : α → Scan β} {s t : Bytes} {a : α}
    (h : f s = some (a, t)) : (f >>= g) s = g a t := by
  show (f s).bind (fun x => g x.1 x.2) = g a t
  rw [h]
  rfl

theorem orElse_none {α : Type} {f g : Scan α} {s : Bytes} (h : f s = none) : (f <|> g) s = g s := by
  show (f s <|> g s) = g s
  rw [h]
  rfl

theorem bind_none {α β : Type} {f : Scan α} {g : α → Scan β} {s : Bytes} (h : f s = none) :
    (f >>= g) s = none := by
  show (f s).bind (fun x => g x.1 x.2) = none
  rw [h]
  rfl

theorem sign_digit {c : UInt8} (hc : isDigit c = true) (s : Bytes) :
    sign (c :: s) = some (false, c :: s) := by
  have hnot : ∀ d : UInt8, isDigit d = false → Scan.char (· == d) (c :: s) = none := by
    intro d hd
    refine if_neg ?_
    rw [beq_iff_eq]
    intro heq
    rw [heq, hd] at hc
    cases hc
  rw [sign, orElse_none (bind_none (hnot 0x2D rfl)), orElse_none (bind_none (hnot 0x2B rfl))]
  rfl

/-- Digits alone are a number. -/
theorem decimal_digits {s : Bytes} (hs : ∀ c ∈ s, isDigit c = true) (hne : s ≠ []) :
    decimal s = some ((digitsValue 10 s : ℚ), []) := by
  have hspan : span isDigit s = some (s, []) := by
    show some (s.takeWhile isDigit, s.dropWhile isDigit) = _
    rw [List.takeWhile_eq_self_iff.mpr hs, List.dropWhile_eq_nil_iff.mpr hs]
  have hmantissa : mantissa isDigit s = some ((s, []), []) := by
    have hrequire : require (decide (s ≠ []) || decide (([] : Bytes) ≠ [])) [] = some ((), []) :=
      if_pos (by simp [hne])
    rw [mantissa, bind_some hspan]
    exact (bind_some (a := []) (t := []) rfl).trans (bind_some hrequire)
  rw [decimal, bind_some hmantissa]
  show some ((digitsValue 10 (s ++ []) : ℚ) * 10 ^ ((0 : ℤ) - (0 : ℕ)), []) = _
  simp

end CentreonBroker.Strtod
