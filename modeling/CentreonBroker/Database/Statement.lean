import Mathlib.Data.List.AList
import Mathlib.Data.List.TakeWhile

/-!
# Statements with named parameters

The constructors of `mysql_stmt`. The named one reads the text once: it leaves quoted strings as
they are, turns names into marks, and notes the position of each name. The unnamed one counts the
marks outside of strings.
-/

namespace CentreonBroker.Database

/-- `mysql_bind_mapping`. -/
abbrev BindMapping := AList fun _ : List Char => ℕ

/-- `unordered_map::insert`, which does not replace what is there. -/
def insertNew (m : BindMapping) (key : List Char) (value : ℕ) : BindMapping :=
  if key ∈ m then m else m.insert key value

def isQuote (c : Char) : Bool := c = '\'' || c = '"'

/-- `isalnum(c) || c == '_'`. -/
def isNameChar (c : Char) : Bool := c.isAlphanum || c = '_'

/-- A name is noted. A second time, both positions are, under keys that the name is changed to. -/
def addName (m : BindMapping) (key : List Char) (size : ℕ) : BindMapping :=
  match m.lookup key with
  | some value => insertNew (insertNew (m.erase key) (key ++ ['1']) value) (key ++ ['2']) size
  | none => insertNew m key size

/-- What the loop of the named constructor has. -/
structure Named where
  q : List Char
  /-- The quote that the string was opened with. -/
  inString : Option Char
  mapping : BindMapping
  size : ℕ

def Named.push (n : Named) (c : Char) : Named := { n with q := n.q ++ [c] }

/-- The loop of the named constructor. It is none when the end is passed: behind a backslash the
next character is read without a check. -/
def namedLoop (n : Named) : List Char → Option Named
  | [] => some n
  | c :: r =>
    match n.inString with
    | some quote =>
      if c = '\\' then
        match r with
        | [] => none
        | d :: r => namedLoop ((n.push c).push d) r
      else
        let n := n.push c
        namedLoop (if c = quote then { n with inString := none } else n) r
    | none =>
      if c = ':' then
        let key := ':' :: r.takeWhile isNameChar
        namedLoop
          { n.push '?' with mapping := addName n.mapping key n.size, size := n.size + 1 }
          (r.dropWhile isNameChar)
      else namedLoop { n.push c with inString := if isQuote c then some c else none } r
termination_by s => s.length
decreasing_by
  · exact Nat.lt_succ_of_lt (Nat.lt_succ_self _)
  · exact Nat.lt_succ_self _
  · exact Nat.lt_succ_of_le (List.length_dropWhile_le _ _)
  · exact Nat.lt_succ_self _

/-- `_compute_param_count`. -/
def computeParamCount (inString jocker : Bool) : List Char → ℕ
  | [] => 0
  | c :: r =>
    if ¬ inString then
      if c = '?' then computeParamCount false jocker r + 1
      else computeParamCount (isQuote c) jocker r
    else if jocker then computeParamCount true false r
    else if c = '\\' then computeParamCount true true r
    else computeParamCount (!isQuote c) false r

/-- `mysql_stmt`. -/
structure Stmt where
  query : List Char
  bindMapping : BindMapping
  paramCount : ℕ

/-- The constructor for `named`. -/
def Stmt.named (query : List Char) : Option Stmt :=
  (namedLoop ⟨[], none, ∅, 0⟩ query).map fun n =>
    { query := n.q, bindMapping := n.mapping, paramCount := n.mapping.entries.length }

/-- The constructor for a query with marks. -/
def Stmt.unnamed (query : List Char) : Stmt :=
  { query := query, bindMapping := ∅, paramCount := computeParamCount false false query }

/-- The positions that the functions `bind_value_as` bind for a name. -/
def Stmt.bindByName (s : Stmt) (name : List Char) : List ℕ :=
  match s.bindMapping.lookup name with
  | some position => [position]
  | none =>
    match s.bindMapping.lookup (name ++ ['1']) with
    | none => []
    | some position => position :: (s.bindMapping.lookup (name ++ ['2'])).toList

/-! ## Texts of queries -/

/-- A part of a text. A string stands with its quotes. -/
inductive Token where
  | plain (c : Char)
  | name (key : List Char)
  | string (quote : Char) (rest : List Char)
  deriving DecidableEq

/-- The string behind its first quote, and what is behind the string. -/
def readString (quote : Char) : Bool → List Char → List Char × List Char
  | _, [] => ([], [])
  | escaped, c :: r =>
    if ¬ escaped ∧ c = quote then ([c], r)
    else
      let (s, r) := readString quote (¬ escaped ∧ c = '\\') r
      (c :: s, r)

theorem length_readString (quote : Char) (escaped : Bool) (s : List Char) :
    (readString quote escaped s).2.length ≤ s.length := by
  induction s generalizing escaped with
  | nil => exact Nat.le_refl _
  | cons c r ih =>
    rw [readString]
    split
    · exact Nat.le_succ _
    · exact Nat.le_succ_of_le (ih _)

def tokens : List Char → List Token
  | [] => []
  | c :: r =>
    if c = ':' then .name (':' :: r.takeWhile isNameChar) :: tokens (r.dropWhile isNameChar)
    else if isQuote c then
      .string c (readString c false r).1 :: tokens (readString c false r).2
    else .plain c :: tokens r
termination_by s => s.length
decreasing_by
  · exact Nat.lt_succ_of_le (List.length_dropWhile_le _ _)
  · exact Nat.lt_succ_of_le (length_readString _ _ _)
  · simp

/-- The names of a text, in order. -/
def names (text : List Char) : List (List Char) :=
  (tokens text).filterMap fun
    | .name key => some key
    | _ => none

/-- The marks of a text that are not in strings. -/
def marks (text : List Char) : ℕ := (tokens text).count (.plain '?')

/-- A name is a colon and at least one character. -/
def Token.replaced : Token → List Char
  | .plain c => [c]
  | .name key => if key = [':'] then [':'] else ['?']
  | .string quote rest => quote :: rest

/-- The text with a mark for each name. -/
def replaced (text : List Char) : List Char := (tokens text).flatMap Token.replaced

/-- The string ends behind a backslash that is not escaped. -/
def bare (quote : Char) : Bool → List Char → Bool
  | escaped, [] => escaped
  | escaped, c :: r =>
    if ¬ escaped ∧ c = quote then false else bare quote (¬ escaped ∧ c = '\\') r

/-- The other quote is in the string only behind backslashes. -/
def clean (quote : Char) : Bool → List Char → Bool
  | _, [] => true
  | escaped, c :: r =>
    if ¬ escaped ∧ c = quote then true
    else (escaped || !isQuote c) && clean quote (¬ escaped ∧ c = '\\') r

def Token.isWhole : Token → Bool
  | .string quote rest => !bare quote false rest
  | _ => true

def Token.isClean : Token → Bool
  | .string quote rest => clean quote false rest
  | _ => true

/-! ## What the loop makes of a text -/

/-- Each name is a mark. -/
def Token.coded : Token → Token
  | .name _ => .plain '?'
  | t => t

def Token.text : Token → List Char
  | .plain c => [c]
  | .name key => key
  | .string quote rest => quote :: rest

@[simp] theorem Token.coded_plain (c : Char) : (plain c).coded = plain c := rfl

@[simp] theorem Token.coded_name (key : List Char) : (name key).coded = plain '?' := rfl

@[simp] theorem Token.coded_string (quote : Char) (rest : List Char) :
    (string quote rest).coded = string quote rest := rfl

@[simp] theorem Token.text_plain (c : Char) : (plain c).text = [c] := rfl

@[simp] theorem Token.text_string (quote : Char) (rest : List Char) :
    (string quote rest).text = quote :: rest := rfl

@[simp] theorem Token.isWhole_plain (c : Char) : (plain c).isWhole = true := rfl

@[simp] theorem Token.isWhole_name (key : List Char) : (name key).isWhole = true := rfl

@[simp] theorem Token.isWhole_string (quote : Char) (rest : List Char) :
    (string quote rest).isWhole = !bare quote false rest := rfl

@[simp] theorem Token.isClean_plain (c : Char) : (plain c).isClean = true := rfl

@[simp] theorem Token.isClean_name (key : List Char) : (name key).isClean = true := rfl

@[simp] theorem Token.isClean_string (quote : Char) (rest : List Char) :
    (string quote rest).isClean = clean quote false rest := rfl

/-- What the loop writes. -/
def coded (text : List Char) : List Char := (tokens text).flatMap fun t => t.coded.text

def addNames (m : BindMapping) : List (List Char) → ℕ → BindMapping
  | [], _ => m
  | key :: keys, size => addNames (addName m key size) keys (size + 1)

theorem readString_append {quote : Char} {escaped : Bool} {s t : List Char}
    (h : (readString quote escaped s).2 = [] → t = []) :
    readString quote escaped ((readString quote escaped s).1 ++ t) =
      ((readString quote escaped s).1, t) := by
  induction s generalizing escaped with
  | nil => rw [h rfl]; rfl
  | cons c r ih =>
    rw [readString] at h ⊢
    split at h
    · rename_i hc
      rw [if_pos hc, List.singleton_append, readString, if_pos hc]
    · rename_i hc
      rw [if_neg hc]
      dsimp only
      rw [List.cons_append, readString, if_neg hc, ih h]

theorem bare_readString (quote : Char) (escaped : Bool) (s : List Char) :
    bare quote escaped (readString quote escaped s).1 = bare quote escaped s := by
  induction s generalizing escaped with
  | nil => rfl
  | cons c r ih =>
    rw [readString, bare]
    split
    · rename_i hc
      rw [bare, if_pos hc]
    · rename_i hc
      rw [bare, if_neg hc, ih]

theorem clean_readString (quote : Char) (escaped : Bool) (s : List Char) :
    clean quote escaped (readString quote escaped s).1 = clean quote escaped s := by
  induction s generalizing escaped with
  | nil => rfl
  | cons c r ih =>
    rw [readString, clean]
    split
    · rename_i hc
      rw [clean, if_pos hc]
    · rename_i hc
      rw [clean, if_neg hc, ih]

theorem backslash_ne {quote : Char} (h : isQuote quote = true) : quote ≠ '\\' := by
  rintro rfl
  cases h

/-- A string is copied, unless it ends behind a backslash. -/
theorem namedLoop_string {quote : Char} (hquote : isQuote quote = true) (q : List Char)
    (m : BindMapping) (k : ℕ) (s : List Char) :
    if bare quote false s then namedLoop ⟨q, some quote, m, k⟩ s = none
    else ∃ i, namedLoop ⟨q, some quote, m, k⟩ s =
        namedLoop ⟨q ++ (readString quote false s).1, i, m, k⟩ (readString quote false s).2 ∧
      (i = none ∨ (readString quote false s).2 = []) := by
  have hne := backslash_ne hquote
  induction hn : s.length using Nat.strong_induction_on generalizing s q with
  | _ n ih =>
    cases s with
    | nil => exact ⟨some quote, by rw [readString, List.append_nil], .inr rfl⟩
    | cons c r =>
      rw [bare, readString, namedLoop.eq_def]
      dsimp only
      by_cases hc : c = '\\'
      · subst hc
        cases r with
        | nil => simp [bare, Ne.symm hne]
        | cons d r =>
          have hlt : r.length < n := hn ▸ Nat.lt_succ_of_lt (Nat.lt_succ_self _)
          have hr := ih r.length hlt (q ++ ['\\'] ++ [d]) r rfl
          simpa [bare, readString, Named.push, Ne.symm hne] using hr
      · by_cases hend : c = quote
        · subst hend
          simpa [hc, Named.push] using ⟨none, rfl, .inl rfl⟩
        · have hr := ih r.length (by simp [← hn]) (q ++ [c]) r rfl
          simpa [hc, hend, Named.push] using hr

/-- Where the other quote does not end the string, both scanners read the same one. -/
theorem computeParamCount_string {quote : Char} (hquote : isQuote quote = true) {escaped : Bool}
    {s : List Char} (h : clean quote escaped s = true) :
    computeParamCount true escaped s =
      computeParamCount false false (readString quote escaped s).2 := by
  have hne := backslash_ne hquote
  induction s generalizing escaped with
  | nil => rfl
  | cons c r ih =>
    rw [clean] at h
    rw [computeParamCount, readString]
    cases escaped with
    | true => exact ih (by simpa using h)
    | false =>
      by_cases hc : c = '\\'
      · subst hc
        simp [Ne.symm hne] at h ⊢
        exact ih h.2
      · by_cases hend : c = quote
        · subst hend
          simp [hc, hquote]
        · simp [hc, hend] at h ⊢
          simpa [h.1] using ih h.2

theorem tokens_colon (r : List Char) :
    tokens (':' :: r) =
      .name (':' :: r.takeWhile isNameChar) :: tokens (r.dropWhile isNameChar) := by
  rw [tokens, if_pos rfl]

theorem tokens_quote {c : Char} (hc : isQuote c = true) (r : List Char) :
    tokens (c :: r) =
      .string c (readString c false r).1 :: tokens (readString c false r).2 := by
  have hcolon : c ≠ ':' := by
    rintro rfl
    cases hc
  rw [tokens, if_neg hcolon, if_pos hc]

theorem tokens_plain {c : Char} (hcolon : c ≠ ':') (hc : isQuote c = false) (r : List Char) :
    tokens (c :: r) = .plain c :: tokens r := by
  rw [tokens, if_neg hcolon, if_neg (by simp [hc])]

/-- What the loop has at its end. -/
theorem namedLoop_eq (q : List Char) (m : BindMapping) (k : ℕ) (text : List Char) :
    ((namedLoop ⟨q, none, m, k⟩ text).map fun n => (n.q, n.mapping)) =
      if (tokens text).all Token.isWhole then some (q ++ coded text, addNames m (names text) k)
      else none := by
  induction hn : text.length using Nat.strong_induction_on generalizing text q m k with
  | _ n ih =>
    cases text with
    | nil => simp [namedLoop, tokens, coded, names, addNames]
    | cons c r =>
      rw [namedLoop.eq_def]
      dsimp only
      by_cases hcolon : c = ':'
      · subst hcolon
        have hlt : (r.dropWhile isNameChar).length < n :=
          hn ▸ Nat.lt_succ_of_le (List.length_dropWhile_le _ _)
        rw [if_pos rfl, coded, names, tokens_colon]
        exact (ih _ hlt _ _ _ _ rfl).trans (by simp [Named.push, coded, names, addNames])
      · rw [if_neg hcolon]
        cases hquote : isQuote c with
        | false =>
          have hlt : r.length < n := hn ▸ Nat.lt_succ_self _
          rw [coded, names, tokens_plain hcolon hquote]
          exact (ih _ hlt _ _ _ _ rfl).trans (by simp [Named.push, coded, names])
        | true =>
          have hlt : (readString c false r).2.length < n :=
            hn ▸ Nat.lt_succ_of_le (length_readString _ _ _)
          have hstring := namedLoop_string hquote (q ++ [c]) m k r
          have hbare := bare_readString c false r
          rw [coded, names, tokens_quote hquote]
          cases hr : bare c false r with
          | true =>
            rw [hr] at hstring hbare
            have hnone : namedLoop ⟨q ++ [c], some c, m, k⟩ r = none := hstring
            simp [Named.push, hnone, hbare]
          | false =>
            rw [hr] at hstring hbare
            obtain ⟨i, hloop, hi⟩ := hstring
            have hrest := ih _ hlt (q ++ [c] ++ (readString c false r).1) m k _ rfl
            have hend : (namedLoop ⟨q ++ [c] ++ (readString c false r).1, i, m, k⟩
                (readString c false r).2).map (fun n => (n.q, n.mapping)) =
                (namedLoop ⟨q ++ [c] ++ (readString c false r).1, none, m, k⟩
                (readString c false r).2).map fun n => (n.q, n.mapping) := by
              rcases hi with rfl | hnil
              · rfl
              · rw [hnil, namedLoop, namedLoop]
                rfl
            have hsome : (namedLoop ⟨q ++ [c], some c, m, k⟩ r).map
                (fun n => (n.q, n.mapping)) = _ := (congrArg _ hloop).trans (hend.trans hrest)
            simpa [Named.push, coded, names, hbare] using hsome

/-- In what is written each name is a mark, and the strings are those of the text. -/
theorem tokens_coded (text : List Char) :
    tokens (coded text) = (tokens text).map Token.coded := by
  induction hn : text.length using Nat.strong_induction_on generalizing text with
  | _ n ih =>
    cases text with
    | nil => simp [tokens, coded]
    | cons c r =>
      by_cases hcolon : c = ':'
      · subst hcolon
        have hlt : (r.dropWhile isNameChar).length < n :=
          hn ▸ Nat.lt_succ_of_le (List.length_dropWhile_le _ _)
        have hrest := ih _ hlt _ rfl
        rw [coded, tokens_colon]
        show tokens ('?' :: coded (r.dropWhile isNameChar)) = _
        rw [tokens_plain (by decide) rfl, hrest]
        rfl
      · cases hquote : isQuote c with
        | false =>
          have hlt : r.length < n := hn ▸ Nat.lt_succ_self _
          rw [coded, tokens_plain hcolon hquote]
          show tokens (c :: coded r) = _
          rw [tokens_plain hcolon hquote, ih _ hlt _ rfl]
          rfl
        | true =>
          have hlt : (readString c false r).2.length < n :=
            hn ▸ Nat.lt_succ_of_le (length_readString _ _ _)
          rw [coded, tokens_quote hquote]
          show tokens (c :: ((readString c false r).1 ++ coded (readString c false r).2)) = _
          have hread := @readString_append c false r (coded (readString c false r).2)
            fun hnil => by rw [hnil]; simp [coded, tokens]
          rw [tokens_quote hquote, hread, ih _ hlt _ rfl]
          rfl

theorem marks_coded (text : List Char) :
    marks (coded text) = marks text + (names text).length := by
  rw [marks, tokens_coded, marks, names]
  induction tokens text with
  | nil => rfl
  | cons t ts ih =>
    rw [List.map_cons, List.count_cons, List.count_cons, ih, List.filterMap_cons]
    cases t with
    | name key => simp [Nat.add_assoc]
    | plain c => simp; omega
    | string quote rest => simp

/-- A mark is written for a name exactly where there is one. -/
theorem coded_eq_replaced_iff (text : List Char) :
    coded text = replaced text ↔ [':'] ∉ names text := by
  rw [coded, replaced, names]
  induction tokens text with
  | nil => exact iff_of_true rfl List.not_mem_nil
  | cons t ts ih =>
    rw [List.flatMap_cons, List.flatMap_cons, List.filterMap_cons]
    cases t with
    | plain c => simpa [Token.replaced] using ih
    | string quote rest => simpa [Token.replaced] using ih
    | name key =>
      by_cases hkey : key = [':']
      · simp [Token.replaced, Token.text, hkey]
      · simpa [Token.replaced, Token.text, hkey, Ne.symm hkey] using ih

theorem computeParamCount_name (r : List Char) :
    computeParamCount false false (r.dropWhile isNameChar) = computeParamCount false false r := by
  induction r with
  | nil => rfl
  | cons c r ih =>
    by_cases hc : isNameChar c
    · have hmark : c ≠ '?' := by
        rintro rfl
        cases hc
      have hquote : isQuote c = false := by
        refine Bool.eq_false_iff.mpr fun h => ?_
        rcases (by simpa [isQuote] using h : c = '\'' ∨ c = '"') with rfl | rfl <;> cases hc
      rw [List.dropWhile_cons_of_pos hc, ih, computeParamCount]
      simp [hmark, hquote]
    · rw [List.dropWhile_cons_of_neg hc]

/-- The marks are counted where each string is the one of the text. -/
theorem computeParamCount_eq (text : List Char) (h : (tokens text).all Token.isClean = true) :
    computeParamCount false false text = marks text := by
  induction hn : text.length using Nat.strong_induction_on generalizing text with
  | _ n ih =>
    cases text with
    | nil => simp [computeParamCount, marks, tokens]
    | cons c r =>
      rw [marks]
      by_cases hcolon : c = ':'
      · subst hcolon
        have hlt : (r.dropWhile isNameChar).length < n :=
          hn ▸ Nat.lt_succ_of_le (List.length_dropWhile_le _ _)
        rw [tokens_colon] at h ⊢
        have hrest := ih _ hlt _ (by simpa using h) rfl
        rw [computeParamCount_name] at hrest
        rw [computeParamCount]
        simpa [isQuote, marks] using hrest
      · cases hquote : isQuote c with
        | false =>
          have hlt : r.length < n := hn ▸ Nat.lt_succ_self _
          rw [tokens_plain hcolon hquote] at h ⊢
          have hrest := ih _ hlt _ (by simpa using h) rfl
          rw [computeParamCount]
          by_cases hmark : c = '?'
          · simp [hmark, hrest, marks]
          · simp [hmark, hrest, hquote, marks]
        | true =>
          have hlt : (readString c false r).2.length < n :=
            hn ▸ Nat.lt_succ_of_le (length_readString _ _ _)
          have hmark : c ≠ '?' := by
            rintro rfl
            cases hquote
          rw [tokens_quote hquote] at h ⊢
          have hclean : clean c false r = true := by
            rw [← clean_readString]
            simp at h
            exact h.1
          have hrest := ih _ hlt _ (by simp at h; simpa using h.2) rfl
          rw [computeParamCount]
          simp [hmark, hquote, computeParamCount_string hquote hclean, hrest, marks]

end CentreonBroker.Database
