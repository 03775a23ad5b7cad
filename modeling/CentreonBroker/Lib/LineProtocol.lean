import Mathlib.Data.List.Basic

/-!
# The line protocol

A point on a line: the measurement and the tags, which commas separate, a space, the fields, and the
time behind another space. In names a backslash takes the meaning from a special character, and
stands for itself before any other; in a quoted string it does so for quotes and backslashes.
-/

namespace CentreonBroker.LineProtocol

/-- The value of a field: a text in quotes, or a number or a boolean without them. -/
inductive FieldValue where
  | scalar (text : List Char)
  | string (text : List Char)
  deriving DecidableEq, Repr

structure Point where
  measurement : List Char
  tags : List (List Char × List Char)
  fields : List (List Char × FieldValue)
  timestamp : Option (List Char)
  deriving DecidableEq, Repr

/-! ## Numbers -/

def isDigits (s : List Char) : Bool := s ≠ [] && s.all Char.isDigit

/-- Digits, with a minus sign or without. -/
def isInteger : List Char → Bool
  | '-' :: s => isDigits s
  | s => isDigits s

/-- Digits, with a point and a fraction or without. -/
def isDecimal (s : List Char) : Bool :=
  match s.splitOn '.' with
  | [n] => isDigits n
  | [n, f] => isDigits n && isDigits f
  | _ => false

def isMantissa : List Char → Bool
  | '-' :: s => isDecimal s
  | s => isDecimal s

def isExponent : List Char → Bool
  | '+' :: s => isDigits s
  | s => isInteger s

def isFloat (s : List Char) : Bool :=
  match s.splitOn 'e' with
  | [m] => isMantissa m
  | [m, x] => isMantissa m && isExponent x
  | _ => false

def booleans : List (List Char) :=
  [['t'], ['T'], "true".toList, "True".toList, "TRUE".toList,
    ['f'], ['F'], "false".toList, "False".toList, "FALSE".toList]

/-- A value that has no quotes: a float, an integer with an `i` behind it, or a boolean. -/
def isScalar (s : List Char) : Bool :=
  isFloat s || (s.getLast? = some 'i' && isInteger s.dropLast) || booleans.contains s

variable {s a : List Char} {x : Char}

theorem eq_of_splitOn_one (h : s.splitOn x = [a]) : s = a := by
  have hs : [x].intercalate (s.splitOn x) = s := List.intercalate_splitOn x
  rw [h] at hs
  simpa [List.intercalate] using hs.symm

theorem eq_of_splitOn_two {b : List Char} (h : s.splitOn x = [a, b]) :
    s = a ++ x :: b := by
  have hs : [x].intercalate (s.splitOn x) = s := List.intercalate_splitOn x
  rw [h] at hs
  simpa [List.intercalate] using hs.symm

/-- What a value without quotes is made of. -/
def isScalarChar (c : Char) : Bool := c.isAlphanum || c = '-' || c = '+' || c = '.'

theorem isScalarChar_of_isDigits (h : isDigits s) : ∀ c ∈ s, isScalarChar c := by
  intro c hc
  have hall : s.all Char.isDigit := (Bool.and_eq_true_iff.mp h).2
  have hdigit : c.isDigit := List.all_eq_true.mp hall c hc
  simp [isScalarChar, Char.isAlphanum, hdigit]

theorem forall_mem_joined (hx : isScalarChar x) {b : List Char}
    (ha : ∀ c ∈ a, isScalarChar c) (hb : ∀ c ∈ b, isScalarChar c) :
    ∀ c ∈ a ++ x :: b, isScalarChar c :=
  List.forall_mem_append.mpr ⟨ha, List.forall_mem_cons.mpr ⟨hx, hb⟩⟩

theorem isScalarChar_of_isInteger (h : isInteger s) : ∀ c ∈ s, isScalarChar c := by
  unfold isInteger at h
  split at h
  · exact List.forall_mem_cons.mpr ⟨by decide, isScalarChar_of_isDigits h⟩
  · exact isScalarChar_of_isDigits h

theorem isScalarChar_of_isDecimal (h : isDecimal s) : ∀ c ∈ s, isScalarChar c := by
  unfold isDecimal at h
  split at h
  · rename_i n hsplit
    rw [eq_of_splitOn_one hsplit]
    exact isScalarChar_of_isDigits h
  · rename_i n f hsplit
    obtain ⟨hn, hf⟩ := Bool.and_eq_true_iff.mp h
    rw [eq_of_splitOn_two hsplit]
    exact forall_mem_joined (by decide) (isScalarChar_of_isDigits hn) (isScalarChar_of_isDigits hf)
  · cases h

theorem isScalarChar_of_isMantissa (h : isMantissa s) :
    ∀ c ∈ s, isScalarChar c := by
  unfold isMantissa at h
  split at h
  · exact List.forall_mem_cons.mpr ⟨by decide, isScalarChar_of_isDecimal h⟩
  · exact isScalarChar_of_isDecimal h

theorem isScalarChar_of_isExponent (h : isExponent s) :
    ∀ c ∈ s, isScalarChar c := by
  unfold isExponent at h
  split at h
  · exact List.forall_mem_cons.mpr ⟨by decide, isScalarChar_of_isDigits h⟩
  · exact isScalarChar_of_isInteger h

theorem isScalarChar_of_isFloat (h : isFloat s) : ∀ c ∈ s, isScalarChar c := by
  unfold isFloat at h
  split at h
  · rename_i m hsplit
    rw [eq_of_splitOn_one hsplit]
    exact isScalarChar_of_isMantissa h
  · rename_i m x hsplit
    obtain ⟨hm, hx⟩ := Bool.and_eq_true_iff.mp h
    rw [eq_of_splitOn_two hsplit]
    exact forall_mem_joined (by decide) (isScalarChar_of_isMantissa hm)
      (isScalarChar_of_isExponent hx)
  · cases h

theorem isScalarChar_of_isScalar (h : isScalar s) : ∀ c ∈ s, isScalarChar c := by
  rcases Bool.or_eq_true_iff.mp h with h | hboolean
  · rcases Bool.or_eq_true_iff.mp h with hfloat | hinteger
    · exact isScalarChar_of_isFloat hfloat
    · obtain ⟨hlast, hinteger⟩ := Bool.and_eq_true_iff.mp hinteger
      obtain ⟨n, hn⟩ := List.getLast?_eq_some_iff.mp (of_decide_eq_true hlast)
      rw [hn, List.dropLast_concat] at hinteger
      rw [hn]
      exact forall_mem_joined (by decide) (isScalarChar_of_isInteger hinteger)
        (List.forall_mem_nil _)
  · have hall : ∀ w ∈ booleans, w.all isScalarChar := by decide
    exact List.all_eq_true.mp (hall s (List.contains_iff_mem.mp hboolean))

/-! ## Reading -/

/-- The name that goes up to a special character, and what is left. With `pending` a backslash was
read, of which the next character decides. -/
def readName (special : Char → Bool) : Bool → List Char → List Char × List Char
  | pending, [] => (if pending then ['\\'] else [], [])
  | pending, c :: s =>
    if special c then
      if pending then
        let (name, rest) := readName special false s
        (c :: name, rest)
      else ([], c :: s)
    else
      let (name, rest) := readName special (c = '\\') s
      let name := if c = '\\' then name else c :: name
      (if pending then '\\' :: name else name, rest)

/-- The text that goes up to the closing quotes, and what is left. -/
def readString : Bool → List Char → Option (List Char × List Char)
  | _, [] => none
  | true, c :: s =>
    (readString false s).map fun p =>
      (if c = '"' ∨ c = '\\' then c :: p.1 else '\\' :: c :: p.1, p.2)
  | false, c :: s =>
    if c = '"' then some ([], s)
    else if c = '\\' then readString true s
    else (readString false s).map fun p => (c :: p.1, p.2)

def measurementSpecial (c : Char) : Bool := c = ',' || c = ' '

def keySpecial (c : Char) : Bool := c = ',' || c = '=' || c = ' '

/-- A name, the equal sign behind it, and what is left. -/
def readKey (s : List Char) : Option (List Char × List Char) :=
  match readName keySpecial false s with
  | (key, '=' :: rest) => if key = [] then none else some (key, rest)
  | _ => none

def readTag (s : List Char) : Option ((List Char × List Char) × List Char) := do
  let (key, s) ← readKey s
  let (value, rest) := readName keySpecial false s
  if value = [] then none else some ((key, value), rest)

/-- The tags, and what is behind the space after them. -/
def readTags : ℕ → List Char → Option (List (List Char × List Char) × List Char)
  | n + 1, ',' :: s => do
    let (tag, s) ← readTag s
    let (tags, rest) ← readTags n s
    return (tag :: tags, rest)
  | _, ' ' :: s => some ([], s)
  | _, _ => none

def readValue : List Char → Option (FieldValue × List Char)
  | '"' :: s => do
    let (text, rest) ← readString false s
    return (.string text, rest)
  | s =>
    let text := s.takeWhile fun c => !measurementSpecial c
    if isScalar text then some (.scalar text, s.dropWhile fun c => !measurementSpecial c) else none

def readField (s : List Char) : Option ((List Char × FieldValue) × List Char) := do
  let (key, s) ← readKey s
  let (value, rest) ← readValue s
  return ((key, value), rest)

/-- The fields, at least one, and what is behind the space after them. -/
def readFields : ℕ → List Char → Option (List (List Char × FieldValue) × Option (List Char))
  | 0, _ => none
  | n + 1, s => do
    let (field, s) ← readField s
    match s with
    | ',' :: s => do
      let (fields, rest) ← readFields n s
      return (field :: fields, rest)
    | ' ' :: s => some ([field], some s)
    | [] => some ([field], none)
    | _ => none

def readLine (line : List Char) : Option Point :=
  let (measurement, s) := readName measurementSpecial false line
  if measurement = [] then none
  else do
    let (tags, s) ← readTags line.length s
    let (fields, timestamp) ← readFields line.length s
    if timestamp.all isInteger then some ⟨measurement, tags, fields, timestamp⟩ else none

/-- Reads a text that is one line. -/
def read (text : List Char) : Option Point :=
  match text.splitOn '\n' with
  | [line, []] => readLine line
  | _ => none

/-! ## Names -/

/-- A backslash before each special character. -/
def escape (special : Char → Bool) (s : List Char) : List Char :=
  s.flatMap fun c => if special c then ['\\', c] else [c]

/-- The backslash that was read last. -/
def held (pending : Bool) : List Char := if pending then ['\\'] else []

section Names

variable {special : Char → Bool}

/-- A character that is not special and no backslash is read, and what is held before it. -/
theorem readName_cons {x : Char} (hx : special x = false) (hne : x ≠ '\\') (pending : Bool)
    (s : List Char) :
    readName special pending (x :: s) =
      (held pending ++ x :: (readName special false s).1, (readName special false s).2) := by
  cases pending <;> simp [readName, held, hx, hne]

/-- A backslash is held. -/
theorem readName_backslash (hbackslash : special '\\' = false) (pending : Bool) (s : List Char) :
    readName special pending ('\\' :: s) =
      (held pending ++ (readName special true s).1, (readName special true s).2) := by
  cases pending <;> simp [readName, held, hbackslash]

/-- A special character behind a backslash is read. -/
theorem readName_special {x : Char} (hx : special x) (s : List Char) :
    readName special true (x :: s) =
      (x :: (readName special false s).1, (readName special false s).2) := by
  simp [readName, hx]

theorem getLast?_held_cons {x : Char} (hx : x ≠ '\\') (pending : Bool) (s : List Char) :
    (held pending ++ x :: s).getLast? ≠ some '\\' ↔ s.getLast? ≠ some '\\' := by
  rw [List.getLast?_append_cons]
  cases s with
  | nil => simp [hx]
  | cons y s => rw [List.getLast?_cons_cons]

/-- A name with a backslash at its end runs into what is behind it, and no other does. The induction
is on the name; a backslash in it is held until the character behind it is seen. -/
theorem readName_escape (hbackslash : special '\\' = false) {c : Char} (hc : special c)
    (s rest r : List Char) (pending : Bool) :
    readName special pending (escape special s ++ c :: rest) = (held pending ++ s, r) ↔
      (held pending ++ s).getLast? ≠ some '\\' ∧ r = c :: rest := by
  have hne : ∀ {x : Char}, special x → x ≠ '\\' := by
    rintro x hx rfl
    exact absurd hx (Bool.eq_false_iff.mp hbackslash)
  have hcancel : ∀ (pre n : List Char) (p : List Char × List Char) (r : List Char),
      (pre ++ p.1, p.2) = (pre ++ n, r) ↔ p = (n, r) := by
    intro pre n p r
    rw [Prod.mk.injEq, List.append_cancel_left_eq, Prod.ext_iff]
  have hcancel_cons : ∀ (pre : List Char) (x : Char) (n : List Char) (p : List Char × List Char)
      (r : List Char), (pre ++ x :: p.1, p.2) = (pre ++ x :: n, r) ↔ p = (n, r) := by
    intro pre x n p r
    rw [Prod.mk.injEq, List.append_cancel_left_eq, List.cons.injEq, Prod.ext_iff]
    simp
  induction s generalizing pending r with
  | nil =>
    cases pending with
    | false =>
      show readName special false (c :: rest) = ([], r) ↔ _
      simp [readName, hc, held, eq_comm]
    | true =>
      show readName special true (c :: rest) = (['\\'], r) ↔ _
      rw [readName_special hc]
      simp [held, hne hc]
  | cons x s ih =>
    rw [escape, List.flatMap_cons, ← escape, List.append_assoc]
    by_cases hx : special x
    · rw [if_pos hx]
      show readName special pending ('\\' :: x :: (escape special s ++ c :: rest)) = _ ↔ _
      rw [readName_backslash hbackslash, readName_special hx, hcancel_cons,
        getLast?_held_cons (hne hx)]
      exact ih r false
    · rw [if_neg hx]
      by_cases hslash : x = '\\'
      · subst hslash
        show readName special pending ('\\' :: (escape special s ++ c :: rest)) = _ ↔ _
        rw [readName_backslash hbackslash, hcancel, List.getLast?_append_cons]
        exact ih r true
      · show readName special pending (x :: (escape special s ++ c :: rest)) = _ ↔ _
        rw [readName_cons (Bool.eq_false_iff.mpr hx) hslash, hcancel_cons,
          getLast?_held_cons hslash]
        exact ih r false

end Names

/-- A name that is read back. -/
def GoodName (s : List Char) : Prop := s ≠ [] ∧ s.getLast? ≠ some '\\'

instance (s : List Char) : Decidable (GoodName s) := inferInstanceAs (Decidable (_ ∧ _))

theorem readKey_iff (key rest r : List Char) :
    readKey (escape keySpecial key ++ '=' :: rest) = some (key, r) ↔ GoodName key ∧ r = rest := by
  have hname := @readName_escape keySpecial rfl '=' rfl key rest
  constructor
  · intro h
    unfold readKey at h
    split at h
    · rename_i k left hread
      split at h
      · cases h
      · rename_i hnil
        cases h
        obtain ⟨hlast, hrest⟩ := (hname ('=' :: r) false).mp hread
        exact ⟨⟨hnil, hlast⟩, (List.cons.inj hrest).2⟩
    · cases h
  · rintro ⟨⟨hnil, hlast⟩, rfl⟩
    have hread := (hname ('=' :: r) false).mpr ⟨hlast, rfl⟩
    rw [readKey, hread]
    exact if_neg hnil

/-! ## Tags -/

def tagText (tag : List Char × List Char) : List Char :=
  ',' :: (escape keySpecial tag.1 ++ '=' :: escape keySpecial tag.2)

def GoodTag (tag : List Char × List Char) : Prop := GoodName tag.1 ∧ GoodName tag.2

variable {c : Char}

theorem readTag_iff (hc : keySpecial c) (tag : List Char × List Char)
    (rest r : List Char) :
    readTag (escape keySpecial tag.1 ++ '=' :: (escape keySpecial tag.2 ++ c :: rest)) =
      some (tag, r) ↔ GoodTag tag ∧ r = c :: rest := by
  have hvalue : ∀ r, readName keySpecial false (escape keySpecial tag.2 ++ c :: rest) =
      (tag.2, r) ↔ tag.2.getLast? ≠ some '\\' ∧ r = c :: rest :=
    fun r => readName_escape (by decide) hc tag.2 rest r false
  constructor
  · intro h
    obtain ⟨⟨key, s⟩, hkey, h⟩ := Option.bind_eq_some_iff.mp h
    dsimp only at h
    split at h
    · cases h
    · rename_i hnil
      obtain ⟨htag, hr⟩ := Prod.mk.inj (Option.some.inj h)
      have hk : key = tag.1 := congrArg Prod.fst htag
      have hv : (readName keySpecial false s).1 = tag.2 := congrArg Prod.snd htag
      rw [hk] at hkey
      obtain ⟨hgood, hs⟩ := (readKey_iff _ _ s).mp hkey
      rw [hs] at hv hr hnil
      obtain ⟨hlast, hrest⟩ := (hvalue r).mp (Prod.ext hv hr)
      exact ⟨⟨hgood, hv ▸ hnil, hlast⟩, hrest⟩
  · rintro ⟨⟨hgood, hnil, hlast⟩, rfl⟩
    rw [readTag, (readKey_iff _ _ _).mpr ⟨hgood, rfl⟩]
    show (if (readName keySpecial false (escape keySpecial tag.2 ++ c :: rest)).1 = [] then none
      else some ((tag.1, (readName keySpecial false _).1), (readName keySpecial false _).2)) = _
    rw [(hvalue _).mpr ⟨hlast, rfl⟩, if_neg hnil]

/-- The tags are read back when their names are, and their values. -/
theorem readTags_iff {n : ℕ} (tags : List (List Char × List Char)) (hn : tags.length ≤ n)
    (rest r : List Char) :
    readTags n (tags.flatMap tagText ++ ' ' :: rest) = some (tags, r) ↔
      (∀ tag ∈ tags, GoodTag tag) ∧ r = rest := by
  induction tags generalizing n with
  | nil =>
    have hread : readTags n (' ' :: rest) = some ([], rest) := by cases n <;> rfl
    simp [hread, eq_comm]
  | cons tag tags ih =>
    obtain ⟨n, rfl⟩ : ∃ k, n = k + 1 := ⟨n - 1, by simp at hn; omega⟩
    have hlength : tags.length ≤ n := by simpa using hn
    -- what is behind a value is a comma or a space
    obtain ⟨c, hc, left, hleft⟩ : ∃ c, keySpecial c ∧ ∃ left,
        tags.flatMap tagText ++ ' ' :: rest = c :: left := by
      cases tags with
      | nil => exact ⟨' ', rfl, rest, rfl⟩
      | cons tag tags => exact ⟨',', rfl, _, rfl⟩
    have htext : (tag :: tags).flatMap tagText ++ ' ' :: rest =
        ',' :: (escape keySpecial tag.1 ++ '=' :: (escape keySpecial tag.2 ++ c :: left)) := by
      rw [← hleft]
      simp [tagText]
    have hih := ih hlength
    rw [hleft] at hih
    rw [htext, readTags, List.forall_mem_cons]
    constructor
    · intro h
      obtain ⟨⟨tag', s⟩, htag, h⟩ := Option.bind_eq_some_iff.mp h
      obtain ⟨⟨tags', r'⟩, htags, h⟩ := Option.bind_eq_some_iff.mp h
      cases h
      obtain ⟨hgood, rfl⟩ := (readTag_iff hc tag left s).mp htag
      obtain ⟨hall, hr⟩ := hih.mp htags
      exact ⟨⟨hgood, hall⟩, hr⟩
    · rintro ⟨⟨hgood, hall⟩, hr⟩
      rw [(readTag_iff hc tag left _).mpr ⟨hgood, rfl⟩]
      show (readTags n (c :: left)).bind _ = _
      rw [hih.mpr ⟨hall, hr⟩]
      rfl

/-! ## Quoted text -/

def quotes (c : Char) : Bool := c = '"'

/-- A text is read back when behind each backslash there is a character that is not escaped. -/
def isGoodText : List Char → Bool
  | [] => true
  | c :: s =>
    if c = '\\' then
      match s with
      | [] => false
      | x :: s => x ≠ '\\' && x ≠ '"' && isGoodText s
    else isGoodText s

theorem isGoodText_cons (h : x ≠ '\\') (s : List Char) :
    isGoodText (x :: s) = isGoodText s := by
  cases s <;> simp [isGoodText, h]

theorem map_cons_iff {o : Option (List Char × List Char)} {t r : List Char} :
    (o.map fun p => (c :: p.1, p.2)) = some (x :: t, r) ↔ c = x ∧ o = some (t, r) := by
  cases o with
  | none => simp
  | some p => simp [Prod.ext_iff, and_assoc]

theorem replicate_append_cons (n : ℕ) (c : Char) (l : List Char) :
    List.replicate n c ++ c :: l = c :: (List.replicate n c ++ l) := by
  rw [← List.cons_append, ← List.replicate_succ, List.replicate_succ', List.append_assoc]
  rfl

/-- A character that is not escaped is read as it is, and the backslash before it. -/
theorem readString_true_cons (hquote : x ≠ '"') (hslash : x ≠ '\\') (s : List Char) :
    readString true (x :: s) =
      ((readString false s).map fun p => (x :: p.1, p.2)).map fun p => ('\\' :: p.1, p.2) := by
  rw [readString, Option.map_map]
  exact congrArg (fun f => (readString false s).map f)
    (funext fun p => by simp [hquote, hslash])

/-- The text in quotes, with backslashes before the quotes in it, is read back when it is good, and
no text that begins with it is read otherwise. The induction carries backslashes in front of the
text: behind two of them the reader is one ahead. -/
theorem readString_iff (s : List Char) (n : ℕ) (z rest r : List Char) :
    readString false (escape quotes s ++ '"' :: rest) =
        some (List.replicate n '\\' ++ (s ++ z), r) ↔
      n = 0 ∧ isGoodText s ∧ z = [] ∧ r = rest := by
  -- what begins with another character has no backslashes in front of it
  have hhead : ∀ {x : Char} {o : Option (List Char × List Char)} {t : List Char} (n : ℕ), x ≠ '\\' →
      ((o.map fun p => (x :: p.1, p.2)) = some (List.replicate n '\\' ++ x :: t, r) ↔
        n = 0 ∧ o = some (t, r)) := by
    intro x o t n hx
    cases n with
    | zero => rw [List.replicate_zero, List.nil_append, map_cons_iff]; simp
    | succ n => rw [List.replicate_succ, List.cons_append, map_cons_iff]; simp [hx]
  induction s using isGoodText.induct generalizing n with
  | case1 =>
    show some (([] : List Char), rest) = _ ↔ _
    constructor
    · intro h
      obtain ⟨hnil, hrest⟩ := Prod.mk.inj (Option.some.inj h)
      obtain ⟨hreplicate, hz⟩ := List.append_eq_nil_iff.mp hnil.symm
      exact ⟨by simpa using hreplicate, rfl, hz, hrest.symm⟩
    · rintro ⟨rfl, -, rfl, rfl⟩
      rfl
  | case2 =>
    show (readString false rest).map _ = _ ↔ _
    rw [List.singleton_append, replicate_append_cons]
    simp [isGoodText]
  | case3 x s ih =>
    rw [List.cons_append, List.cons_append, replicate_append_cons, isGoodText, if_pos rfl]
    by_cases hquote : x = '"'
    · subst hquote
      show some (['\\'], escape quotes s ++ '"' :: rest) = _ ↔ _
      simp
    · by_cases hslash : x = '\\'
      · subst hslash
        have hahead : _ ↔ _ := ih (n + 1)
        show (readString false (escape quotes s ++ '"' :: rest)).map (fun p => ('\\' :: p.1, p.2)) =
          _ ↔ _
        rw [replicate_append_cons, ← List.cons_append, ← List.replicate_succ, map_cons_iff,
          hahead]
        simp
      · have hescape : escape quotes ('\\' :: x :: s) = '\\' :: x :: escape quotes s := by
          simp [escape, quotes, hquote]
        rw [hescape]
        show readString true (x :: (escape quotes s ++ '"' :: rest)) = _ ↔ _
        have hs : _ ↔ _ := ih 0
        rw [List.replicate_zero, List.nil_append] at hs
        rw [readString_true_cons hquote hslash, map_cons_iff, hhead n hslash, hs]
        simp [hquote, hslash]
  | case4 x s hne ih =>
    have hs : _ ↔ _ := ih 0
    rw [List.replicate_zero, List.nil_append] at hs
    rw [List.cons_append, isGoodText_cons hne]
    by_cases hquote : x = '"'
    · subst hquote
      show (readString false (escape quotes s ++ '"' :: rest)).map (fun p => ('"' :: p.1, p.2)) =
        _ ↔ _
      rw [hhead n hne, hs]
      simp
    · have hescape : escape quotes (x :: s) = x :: escape quotes s := by
        simp [escape, quotes, hquote]
      rw [hescape, List.cons_append, readString, if_neg hquote, if_neg hne, hhead n hne, hs]
      simp

/-! ## Values -/

/-- The value of a field as it is written: without quotes, or in pieces that each have quotes. -/
inductive Written where
  | scalar (text : List Char)
  | strings (pieces : List (List Char))

def quoted (text : List Char) : List Char := '"' :: (escape quotes text ++ ['"'])

def Written.text : Written → List Char
  | .scalar text => text
  | .strings pieces => pieces.flatMap quoted

def Written.value : Written → FieldValue
  | .scalar text => .scalar text
  | .strings pieces => .string pieces.flatten

/-- What is read back. -/
def Written.Good : Written → Prop
  | .scalar text => isScalar text
  | .strings pieces => ∃ text, pieces = [text] ∧ isGoodText text

theorem not_special_of_isScalar (h : isScalar s) :
    ∀ c ∈ s, (!measurementSpecial c) = true := by
  intro c hc
  have hchar := isScalarChar_of_isScalar h c hc
  have hcomma : c ≠ ',' := by
    rintro rfl
    cases hchar
  have hspace : c ≠ ' ' := by
    rintro rfl
    cases hchar
  simp [measurementSpecial, hcomma, hspace]

theorem readValue_scalar (hc : measurementSpecial c) (text rest r : List Char) :
    readValue (text ++ c :: rest) = some (.scalar text, r) ↔ isScalar text ∧ r = c :: rest := by
  have hstop : (!measurementSpecial c) = false := by rw [hc]; rfl
  have htake : isScalar text →
      (text ++ c :: rest).takeWhile (fun c => !measurementSpecial c) = text ∧
      (text ++ c :: rest).dropWhile (fun c => !measurementSpecial c) = c :: rest := by
    intro h
    rw [List.takeWhile_append_of_pos (not_special_of_isScalar h),
      List.dropWhile_append_of_pos (not_special_of_isScalar h), List.takeWhile_cons,
      List.dropWhile_cons, hstop]
    simp
  constructor
  · intro h
    unfold readValue at h
    split at h
    · obtain ⟨p, -, h⟩ := Option.bind_eq_some_iff.mp h
      cases h
    · dsimp only at h
      split at h
      · rename_i hscalar
        obtain ⟨htext, hr⟩ := Prod.mk.inj (Option.some.inj h)
        rw [FieldValue.scalar.inj htext] at hscalar
        exact ⟨hscalar, hr.symm.trans (htake hscalar).2⟩
      · cases h
  · rintro ⟨hscalar, rfl⟩
    obtain ⟨htext, hrest⟩ := htake hscalar
    unfold readValue
    split
    · rename_i s heq
      -- no value without quotes begins with quotes
      have hmem : '"' ∈ text := by
        cases text with
        | nil => cases hscalar
        | cons x text =>
          rw [(List.cons.inj heq).1]
          exact List.mem_cons_self
      exact absurd (isScalarChar_of_isScalar hscalar _ hmem) (by decide)
    · rw [htext, hrest]
      exact if_pos hscalar

theorem readValue_quoted (text : List Char) (z rest r : List Char) :
    readValue (quoted text ++ rest) = some (.string (text ++ z), r) ↔
      isGoodText text ∧ z = [] ∧ r = rest := by
  have hread := readString_iff text 0 z rest r
  rw [List.replicate_zero, List.nil_append] at hread
  have htext : quoted text ++ rest = '"' :: (escape quotes text ++ '"' :: rest) := by simp [quoted]
  rw [htext]
  show (readString false (escape quotes text ++ '"' :: rest)).bind _ = _ ↔ _
  constructor
  · intro h
    obtain ⟨⟨t, left⟩, hstring, h⟩ := Option.bind_eq_some_iff.mp h
    cases h
    exact (hread.mp hstring).2
  · intro h
    rw [hread.mpr ⟨rfl, h⟩]
    rfl

/-- What is written is read back up to a comma or a space when it is good. -/
theorem readValue_iff (w : Written) (hc : measurementSpecial c) (rest r : List Char)
    (hr : ∀ x ∈ r.head?, measurementSpecial x) :
    readValue (w.text ++ c :: rest) = some (w.value, r) ↔ w.Good ∧ r = c :: rest := by
  cases w with
  | scalar text => exact readValue_scalar hc text rest r
  | strings pieces =>
    cases pieces with
    | nil =>
      -- nothing is no value
      have hnone : readValue (c :: rest) = none := by
        have hne : c ≠ '"' := by
          rintro rfl
          cases hc
        unfold readValue
        split
        · rename_i s heq
          exact absurd (List.cons.inj heq).1 hne
        · rw [List.takeWhile_cons, hc]
          rfl
      constructor
      · intro h
        cases hnone.symm.trans h
      · rintro ⟨⟨text, hnil, -⟩, -⟩
        cases hnil
    | cons text pieces =>
      have hquoted := readValue_quoted text pieces.flatten (pieces.flatMap quoted ++ c :: rest) r
      rw [Written.text, List.flatMap_cons, List.append_assoc]
      refine hquoted.trans ?_
      cases pieces with
      | nil => simp [Written.Good]
      | cons piece pieces =>
        -- the quotes of the next piece stand where a comma or a space should
        constructor
        · rintro ⟨-, -, rfl⟩
          exact absurd (hr '"' rfl) (by decide)
        · rintro ⟨⟨_, hone, -⟩, -⟩
          cases hone

/-! ## Fields -/

def fieldText (field : List Char × Written) : List Char :=
  escape keySpecial field.1 ++ '=' :: field.2.text

def fieldsText : List (List Char × Written) → List Char
  | [] => []
  | [field] => fieldText field
  | field :: fields => fieldText field ++ ',' :: fieldsText fields

def GoodField (field : List Char × Written) : Prop := GoodName field.1 ∧ field.2.Good

theorem readField_iff (field : List Char × Written) (hc : measurementSpecial c)
    (rest r : List Char) (hr : ∀ x ∈ r.head?, measurementSpecial x) :
    readField (fieldText field ++ c :: rest) = some ((field.1, field.2.value), r) ↔
      GoodField field ∧ r = c :: rest := by
  rw [fieldText, List.append_assoc, List.cons_append]
  constructor
  · intro h
    obtain ⟨⟨key, s⟩, hkey, h⟩ := Option.bind_eq_some_iff.mp h
    obtain ⟨⟨value, left⟩, hvalue, h⟩ := Option.bind_eq_some_iff.mp h
    cases h
    obtain ⟨hgood, rfl⟩ := (readKey_iff _ _ s).mp hkey
    obtain ⟨hwritten, hleft⟩ := (readValue_iff _ hc rest _ hr).mp hvalue
    exact ⟨⟨hgood, hwritten⟩, hleft⟩
  · rintro ⟨⟨hgood, hwritten⟩, rfl⟩
    rw [readField, (readKey_iff _ _ _).mpr ⟨hgood, rfl⟩]
    show (readValue (field.2.text ++ c :: rest)).bind _ = _
    rw [(readValue_iff _ hc rest _ hr).mpr ⟨hwritten, rfl⟩]
    rfl

theorem readFields_ne_nil {n : ℕ} {fields : List (List Char × FieldValue)}
    {rest : Option (List Char)} (h : readFields n s = some (fields, rest)) : fields ≠ [] := by
  cases n with
  | zero => cases h
  | succ n =>
    rw [readFields] at h
    obtain ⟨⟨field, s⟩, -, h⟩ := Option.bind_eq_some_iff.mp h
    dsimp only at h
    split at h
    · obtain ⟨⟨fields', rest'⟩, -, h⟩ := Option.bind_eq_some_iff.mp h
      cases h
      exact List.cons_ne_nil _ _
    · cases h
      exact List.cons_ne_nil _ _
    · cases h
      exact List.cons_ne_nil _ _
    · cases h

/-- A field is read as it was written. -/
def readAs (field : List Char × Written) : List Char × FieldValue := (field.1, field.2.value)

/-- The fields are read back when each of them is. -/
theorem readFields_iff {n : ℕ} (fields : List (List Char × Written)) (hfields : fields ≠ [])
    (hn : fields.length ≤ n) (rest r : List Char) :
    readFields n (fieldsText fields ++ ' ' :: rest) = some (fields.map readAs, some r) ↔
      (∀ field ∈ fields, GoodField field) ∧ r = rest := by
  induction fields generalizing n with
  | nil => exact absurd rfl hfields
  | cons field fields ih =>
    obtain ⟨n, rfl⟩ : ∃ k, n = k + 1 := ⟨n - 1, by simp at hn; omega⟩
    have hlength : fields.length ≤ n := by simpa using hn
    rw [readFields, List.forall_mem_cons]
    cases fields with
    | nil =>
      have hfield := fun r => readField_iff field (c := ' ') (by decide) rest (' ' :: r)
        (by simp; decide)
      constructor
      · intro h
        obtain ⟨⟨field', s⟩, hread, h⟩ := Option.bind_eq_some_iff.mp h
        dsimp only at h
        split at h
        · obtain ⟨⟨fields', rest'⟩, hmore, h⟩ := Option.bind_eq_some_iff.mp h
          cases h
          exact absurd rfl (readFields_ne_nil hmore)
        · cases h
          obtain ⟨hgood, hrest⟩ := (hfield r).mp hread
          exact ⟨⟨hgood, List.forall_mem_nil _⟩, (List.cons.inj hrest).2⟩
        · cases h
        · cases h
      · rintro ⟨⟨hgood, -⟩, rfl⟩
        rw [fieldsText, (hfield r).mpr ⟨hgood, rfl⟩]
        rfl
    | cons field' fields =>
      have hih := ih (List.cons_ne_nil _ _) hlength
      have hfield := fun s => readField_iff field (c := ',') (by decide)
        (fieldsText (field' :: fields) ++ ' ' :: rest) (',' :: s) (by simp; decide)
      have htext : fieldsText (field :: field' :: fields) ++ ' ' :: rest =
          fieldText field ++ ',' :: (fieldsText (field' :: fields) ++ ' ' :: rest) := by
        simp [fieldsText]
      rw [htext]
      constructor
      · intro h
        obtain ⟨⟨_, s⟩, hread, h⟩ := Option.bind_eq_some_iff.mp h
        dsimp only at h
        split at h
        · obtain ⟨⟨fields', rest'⟩, hmore, h⟩ := Option.bind_eq_some_iff.mp h
          cases h
          obtain ⟨hgood, hs⟩ := (hfield _).mp hread
          rw [(List.cons.inj hs).2] at hmore
          obtain ⟨hall, hr⟩ := hih.mp hmore
          exact ⟨⟨hgood, hall⟩, hr⟩
        · cases h
        · cases h
        · cases h
      · rintro ⟨⟨hgood, hall⟩, hr⟩
        rw [(hfield _).mpr ⟨hgood, rfl⟩]
        show (readFields n (fieldsText (field' :: fields) ++ ' ' :: rest)).bind _ = _
        rw [hih.mpr ⟨hall, hr⟩]
        rfl

/-! ## Lines -/

theorem length_le_flatMap {α β : Type} {f : α → List β} (h : ∀ a, 1 ≤ (f a).length) (l : List α) :
    l.length ≤ (l.flatMap f).length := by
  induction l with
  | nil => exact Nat.zero_le _
  | cons a l ih =>
    have ha := h a
    rw [List.flatMap_cons, List.length_append, List.length_cons]
    omega

theorem length_le_fieldsText (fields : List (List Char × Written)) :
    fields.length ≤ (fieldsText fields).length := by
  have hone : ∀ field, 1 ≤ (fieldText field).length := by
    intro field
    simp [fieldText]
    omega
  induction fields with
  | nil => exact Nat.zero_le _
  | cons field fields ih =>
    cases fields with
    | nil => exact hone field
    | cons field' fields =>
      have hfield := hone field
      simp only [fieldsText, List.length_append, List.length_cons] at ih ⊢
      omega

section Line

variable (measurement : List Char) (tags : List (List Char × List Char))
  (fields : List (List Char × Written)) (time : List Char)

/-- The line as far as the space before the fields. -/
def headText : List Char :=
  escape measurementSpecial measurement ++ (tags.flatMap tagText ++ [' '])

def lineText : List Char := headText measurement tags ++ (fieldsText fields ++ ' ' :: time)

theorem readLine_fields_ne_nil {line : List Char} {point : Point} (h : readLine line = some point) :
    point.fields ≠ [] := by
  unfold readLine at h
  dsimp only at h
  split at h
  · cases h
  · obtain ⟨⟨tags, s⟩, -, h⟩ := Option.bind_eq_some_iff.mp h
    obtain ⟨⟨fields, timestamp⟩, hfields, h⟩ := Option.bind_eq_some_iff.mp h
    dsimp only at h
    split at h
    · cases h
      exact readFields_ne_nil hfields
    · cases h

variable {measurement tags fields time}

/-- **A line is read back** when its names and its values are good. -/
theorem readLine_iff (hfields : fields ≠ []) (htime : isInteger time) :
    readLine (lineText measurement tags fields time) =
        some ⟨measurement, tags, fields.map readAs, some time⟩ ↔
      GoodName measurement ∧ (∀ tag ∈ tags, GoodTag tag) ∧ ∀ field ∈ fields, GoodField field := by
  -- what is behind the measurement is a comma or a space
  obtain ⟨c, hc, left, hleft⟩ : ∃ c, measurementSpecial c ∧ ∃ left,
      tags.flatMap tagText ++ ' ' :: (fieldsText fields ++ ' ' :: time) = c :: left := by
    cases tags with
    | nil => exact ⟨' ', rfl, _, rfl⟩
    | cons tag tags => exact ⟨',', rfl, _, rfl⟩
  have htext : lineText measurement tags fields time =
      escape measurementSpecial measurement ++ c :: left := by
    rw [← hleft]
    simp [lineText, headText]
  have htags_length : tags.length ≤ (lineText measurement tags fields time).length := by
    have hlength := length_le_flatMap (f := tagText) (fun tag => by simp [tagText]) tags
    simp only [lineText, headText, List.length_append]
    omega
  have hfields_length : fields.length ≤ (lineText measurement tags fields time).length := by
    have hlength := length_le_fieldsText fields
    simp only [lineText, List.length_append]
    omega
  have hname := fun r => @readName_escape measurementSpecial rfl _ hc measurement
    left r false
  have htags := readTags_iff tags htags_length (fieldsText fields ++ ' ' :: time)
  have hrest := readFields_iff fields hfields hfields_length time
  rw [hleft] at htags
  unfold readLine
  constructor
  · intro h
    rcases hread : readName measurementSpecial false (lineText measurement tags fields time) with
      ⟨name, behind⟩
    rw [hread] at h
    dsimp only at h
    split at h
    · cases h
    · rename_i hnil
      obtain ⟨⟨tags', s⟩, hreadtags, h⟩ := Option.bind_eq_some_iff.mp h
      obtain ⟨⟨fields', timestamp⟩, hreadfields, h⟩ := Option.bind_eq_some_iff.mp h
      dsimp only at hreadfields h
      split at h
      · obtain ⟨rfl, rfl, rfl, rfl⟩ := Point.mk.inj (Option.some.inj h)
        rw [htext] at hread
        obtain ⟨hlast, rfl⟩ := (hname behind).mp hread
        obtain ⟨hgoodtags, rfl⟩ := (htags s).mp hreadtags
        exact ⟨⟨hnil, hlast⟩, hgoodtags, ((hrest time).mp hreadfields).1⟩
      · cases h
  · rintro ⟨⟨hnil, hlast⟩, hgoodtags, hgoodfields⟩
    have hread : readName measurementSpecial false (lineText measurement tags fields time) =
        (measurement, c :: left) := by
      rw [htext]
      exact (hname _).mpr ⟨hlast, rfl⟩
    rw [hread]
    dsimp only
    rw [if_neg hnil, (htags _).mpr ⟨hgoodtags, rfl⟩]
    show (readFields _ (fieldsText fields ++ ' ' :: time)).bind _ = _
    rw [(hrest time).mpr ⟨hgoodfields, rfl⟩]
    exact if_pos htime

end Line

theorem mem_escape_iff {special : Char → Bool} (hc : c ≠ '\\') (s : List Char) :
    c ∈ escape special s ↔ c ∈ s := by
  induction s with
  | nil => rfl
  | cons x s ih =>
    rw [escape, List.flatMap_cons, ← escape, List.mem_append, List.mem_cons, ih]
    split <;> simp [hc]

theorem mem_text_iff (hslash : c ≠ '\\') (hquote : c ≠ '"') (w : Written) :
    c ∈ w.text ↔ match w with
      | .scalar text => c ∈ text
      | .strings pieces => c ∈ pieces.flatten := by
  cases w with
  | scalar text => rfl
  | strings pieces =>
    show c ∈ pieces.flatMap quoted ↔ c ∈ pieces.flatten
    rw [List.mem_flatMap, List.mem_flatten]
    refine exists_congr fun piece => and_congr_right fun _ => ?_
    simp [quoted, mem_escape_iff hslash, hquote]

theorem mem_fieldsText_iff (hslash : c ≠ '\\') (hcomma : c ≠ ',') (heq : c ≠ '=')
    (fields : List (List Char × Written)) :
    c ∈ fieldsText fields ↔ ∃ field ∈ fields, c ∈ field.1 ∨ c ∈ field.2.text := by
  have hfield : ∀ field, c ∈ fieldText field ↔ c ∈ field.1 ∨ c ∈ field.2.text := by
    intro field
    simp [fieldText, mem_escape_iff hslash, heq]
  induction fields with
  | nil => simp [fieldsText]
  | cons field fields ih =>
    cases fields with
    | nil => simp [fieldsText, hfield]
    | cons field' fields =>
      have hrest : _ ↔ _ := ih
      rw [fieldsText, List.mem_append, List.mem_cons, hrest, hfield,
        List.exists_mem_cons_iff _ field (field' :: fields)]
      · exact or_congr_right (or_iff_right hcomma)
      · exact List.cons_ne_nil _ _

/-- The newlines of a line are those of its names and values. -/
theorem newline_mem_lineText_iff {measurement : List Char} {tags : List (List Char × List Char)}
    {fields : List (List Char × Written)} {time : List Char} (htime : '\n' ∉ time) :
    '\n' ∈ lineText measurement tags fields time ↔ '\n' ∈ measurement ∨
      (∃ tag ∈ tags, '\n' ∈ tag.1 ∨ '\n' ∈ tag.2) ∨
      ∃ field ∈ fields, '\n' ∈ field.1 ∨ '\n' ∈ field.2.text := by
  have htag : ∀ tag, '\n' ∈ tagText tag ↔ '\n' ∈ tag.1 ∨ '\n' ∈ tag.2 := by
    intro tag
    simp [tagText, mem_escape_iff (show '\n' ≠ '\\' by decide)]
  have htags : '\n' ∈ tags.flatMap tagText ↔ ∃ tag ∈ tags, '\n' ∈ tag.1 ∨ '\n' ∈ tag.2 := by
    rw [List.mem_flatMap]
    exact exists_congr fun tag => and_congr_right fun _ => htag tag
  rw [lineText, headText, List.mem_append, List.mem_append, List.mem_append, List.mem_append,
    List.mem_cons, mem_escape_iff (by decide), htags,
    mem_fieldsText_iff (by decide) (by decide) (by decide), or_assoc]
  simp [htime]

/-- A text is one line when there is no other newline in it. -/
theorem read_iff (line : List Char) (point : Point) :
    read (line ++ ['\n']) = some point ↔ '\n' ∉ line ∧ readLine line = some point := by
  have hsplit : (line ++ ['\n']).splitOn '\n' = line.splitOn '\n' ++ [[]] :=
    List.splitOn_append_cons_self line []
  unfold read
  rw [hsplit]
  by_cases hmem : '\n' ∈ line
  · -- two lines or more
    obtain ⟨a, b, rfl⟩ := List.append_of_mem hmem
    rw [List.splitOn_append_cons_self]
    split
    · rename_i l hl
      have ha := List.length_pos_of_ne_nil (List.splitOn_ne_nil '\n' a)
      have hb := List.length_pos_of_ne_nil (List.splitOn_ne_nil '\n' b)
      have hlength := congrArg List.length hl
      simp only [List.length_append, List.length_cons, List.length_nil] at hlength
      omega
    · simp
  · rw [List.splitOn_eq_singleton hmem]
    simp [hmem]

end CentreonBroker.LineProtocol
