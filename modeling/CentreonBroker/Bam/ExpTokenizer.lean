import Mathlib.Data.List.Basic
import Mathlib.Tactic.Common

/-!
# The tokenizer of boolean expressions

`exp_tokenizer` splits a text into tokens. It skips white space, reads a special character or two
as one token, and anything else up to the next delimiter, with quotes and backslashes. A token
between braces is an operator or a constant, or stands for the status of a host or a service.

The tokenizer is modelled by what is left of its text; a position is counted from it.
-/

namespace CentreonBroker.Bam

structure ExpTokenizer where
  text : String
  rest : List Char
  queue : List String

namespace ExpTokenizer

def new (text : String) : ExpTokenizer := ⟨text, text.toList, []⟩

/-- `isspace`, in the C locale. -/
def isspace (c : Char) : Bool :=
  c == ' ' || c == '\t' || c == '\n' || c == '\x0b' || c == '\x0c' || c == '\r'

/-- `_is_special_char`. -/
def isSpecialChar (c : Char) : Bool :=
  ['(', ')', ',', '+', '-', '*', '/', '%', '=', '!', '>', '<', '|', '&'].contains c

/-- `_is_delimiter`. -/
def isDelimiter (c : Char) : Bool := isspace c || isSpecialChar c

/-- `_is_right_brace`. -/
def isRightBrace (c : Char) : Bool := c == '}'

/-- `_is_space_or_right_brace`. -/
def isSpaceOrRightBrace (c : Char) : Bool := isspace c || isRightBrace c

/-- `_skip_ws`. -/
def skipWs (rest : List Char) : List Char := rest.dropWhile isspace

/-- Where the loop of `_extract_until` stands: after a backslash, or between quotes. -/
inductive Reading where
  | plain
  | escape
  | quoted (quote : Char)
  | quotedEscape

/-- The exception of a quote that is not closed. -/
def unterminated (quote : Char) (text : String) : String :=
  "unterminated " ++ (if quote = '"' then "double" else "single") ++
    " quote in the following expression: " ++ text

/-- `_extract_until`: the token, and the text from the character that ended it. -/
def extractUntil (predicate : Char → Bool) (text : String) :
    Reading → List Char → Except String (List Char × List Char)
  | .plain, [] => .ok ([], [])
  | .plain, c :: cs =>
    if predicate c then .ok ([], c :: cs)
    else if c = '\'' ∨ c = '"' then extractUntil predicate text (.quoted c) cs
    else if c = '\\' then extractUntil predicate text .escape cs
    else (extractUntil predicate text .plain cs).map fun r => (c :: r.1, r.2)
  -- a backslash at the end of the text is dropped
  | .escape, [] => .ok ([], [])
  | .escape, c :: cs => (extractUntil predicate text .plain cs).map fun r => (c :: r.1, r.2)
  | .quoted q, [] => .error (unterminated q text)
  | .quoted q, c :: cs =>
    if c = q then extractUntil predicate text .plain cs
    else if q = '"' ∧ c = '\\' then extractUntil predicate text .quotedEscape cs
    else (extractUntil predicate text (.quoted q) cs).map fun r => (c :: r.1, r.2)
  | .quotedEscape, [] => .error (unterminated '"' text)
  | .quotedEscape, c :: cs =>
    (extractUntil predicate text (.quoted '"') cs).map fun r => (c :: r.1, r.2)

/-- The operators and constants that stay as they are between braces. -/
def isKeyword (token : String) : Bool :=
  ["IS", "NOT", "AND", "XOR", "OR", "OK", "WARNING", "CRITICAL", "UNKNOWN", "UP", "DOWN",
    "UNREACHABLE"].contains token

/-- The end of a token between braces. `current` is where the last part of it started. -/
def closeBrace (t : ExpTokenizer) (current : List Char) (token : String) (rest : List Char)
    (queue : List String) : Except String (String × ExpTokenizer) :=
  match rest with
  | '}' :: rest => .ok (token, { t with rest := rest, queue := queue })
  | _ =>
    .error ("opening brace at position " ++ toString (t.text.length - current.length)
      ++ " has no ending brace ")

/-- The part of `_extract_token` about braces, after the left one. -/
def extractBrace (t : ExpTokenizer) (cs : List Char) : Except String (String × ExpTokenizer) := do
  let (name, rest) ← extractUntil isSpaceOrRightBrace t.text .plain cs
  if isKeyword (String.ofList name) then t.closeBrace cs (String.ofList name) rest t.queue
  else
    let queue := t.queue ++ ["(", String.ofList name]
    match skipWs rest with
    | c :: cs' =>
      if c ≠ '}' then
        let (service, rest) ← extractUntil isRightBrace t.text .plain (c :: cs')
        t.closeBrace (c :: cs') "SERVICESTATUS" rest (queue ++ [",", String.ofList service, ")"])
      else t.closeBrace (c :: cs') "HOSTSTATUS" (c :: cs') (queue ++ [")"])
    | [] => t.closeBrace [] "HOSTSTATUS" [] (queue ++ [")"])

/-- `_extract_token`, on a text that is not at its end. -/
def extractToken (t : ExpTokenizer) (c : Char) (cs : List Char) :
    Except String (String × ExpTokenizer) :=
  if c = '{' then t.extractBrace cs
  else
    (extractUntil isDelimiter t.text .plain (c :: cs)).map fun r =>
      (String.ofList r.1, { t with rest := r.2 })

/-- The characters that make one token with a second one: `==`, `!=`, `<=`, `>=`, `||` and `&&`. -/
def isDouble (c d : Char) : Bool :=
  (c == '=' || c == '!' || c == '<' || c == '>') && d == '=' || (c == '|' || c == '&') && c == d

/-- `next`: the next token, which is empty at the end of the text. -/
def next (t : ExpTokenizer) : Except String (String × ExpTokenizer) :=
  match t.queue with
  | token :: queue => .ok (token, { t with queue := queue })
  | [] =>
    match skipWs t.rest with
    | [] => .ok ("", { t with rest := [] })
    | c :: cs =>
      if isSpecialChar c then
        match cs with
        | d :: ds =>
          if isDouble c d then .ok (String.ofList [c, d], { t with rest := ds })
          else .ok (String.ofList [c], { t with rest := d :: ds })
        | [] => .ok (String.ofList [c], { t with rest := [] })
      else t.extractToken c cs

/-! ## The loop on the tokens ends -/

theorem length_skipWs_le (rest : List Char) : (skipWs rest).length ≤ rest.length :=
  (List.dropWhile_suffix _).length_le

theorem map_eq_ok {α β ε : Type} {f : α → β} {x : Except ε α} {b : β} (h : x.map f = .ok b) :
    ∃ a, x = .ok a ∧ f a = b := by
  cases x with
  | error e => cases h
  | ok a => exact ⟨a, rfl, Except.ok.inj h⟩

variable {rest cs : List Char}

theorem suffix_of_extractUntil {predicate : Char → Bool} {text : String} {r : Reading}
    {token : List Char} (h : extractUntil predicate text r cs = .ok (token, rest)) :
    rest <:+ cs := by
  -- a step either stops, goes on after one character, or keeps this character
  have hkeep : ∀ {c : Char} {cs : List Char} {x : Except String (List Char × List Char)}
      {token rest : List Char},
      (∀ {token rest : List Char}, x = .ok (token, rest) → rest <:+ cs) →
      (x.map fun r => (c :: r.1, r.2)) = .ok (token, rest) → rest <:+ c :: cs := by
    intro c cs x token rest ih h
    obtain ⟨⟨token', rest'⟩, hx, hr⟩ := map_eq_ok h
    cases hr
    exact (ih hx).trans (List.suffix_cons c cs)
  fun_induction extractUntil predicate text r cs generalizing token rest with
  | case1 => cases h; exact List.suffix_refl _
  | case2 c cs hp => cases h; exact List.suffix_refl _
  | case3 c cs hp hq ih | case9 c cs ih | case10 q c cs hc hm ih =>
    exact (ih h).trans (List.suffix_cons c cs)
  | case4 cs hp hq ih => exact (ih h).trans (List.suffix_cons _ cs)
  | case5 c cs hp hq hb ih => exact hkeep ih h
  | case6 => cases h; exact List.suffix_refl _
  | case7 c cs ih => exact hkeep ih h
  | case8 => cases h
  | case11 q c cs hc hm ih => exact hkeep ih h
  | case12 => cases h
  | case13 c cs ih => exact hkeep ih h

theorem length_extractUntil_le {predicate : Char → Bool} {text : String} {r : Reading}
    {token : List Char} (h : extractUntil predicate text r cs = .ok (token, rest)) :
    rest.length ≤ cs.length :=
  (suffix_of_extractUntil h).length_le

/-- A first character that does not end the token is consumed. -/
theorem length_extractUntil_lt {predicate : Char → Bool} {text : String} {c : Char}
    {token : List Char} (hc : predicate c = false)
    (h : extractUntil predicate text .plain (c :: cs) = .ok (token, rest)) :
    rest.length < (c :: cs).length := by
  rw [extractUntil, if_neg (by simp [hc])] at h
  split at h
  · exact Nat.lt_succ_of_le (length_extractUntil_le h)
  · split at h
    · exact Nat.lt_succ_of_le (length_extractUntil_le h)
    · obtain ⟨r, hr, heq⟩ := map_eq_ok h
      cases heq
      exact Nat.lt_succ_of_le (length_extractUntil_le hr)

theorem isspace_of_skipWs {c : Char} (h : skipWs rest = c :: cs) :
    isspace c = false := by
  have := List.head?_dropWhile_not isspace rest
  rw [← skipWs, h] at this
  simpa using this

/-- A character of the text counts for what a pair of braces may put in the queue. -/
def measure (t : ExpTokenizer) : ℕ := 3 * t.rest.length + t.queue.length

variable {t' t : ExpTokenizer} {token : String}

theorem measure_closeBrace {current : List Char} {token' : String}
    {queue : List String} (h : t.closeBrace current token rest queue = .ok (token', t')) :
    t'.measure + 3 = 3 * rest.length + queue.length := by
  unfold closeBrace at h
  split at h
  · cases h
    simp only [measure, List.length_cons]
    omega
  · cases h

theorem measure_extractBrace
    (ht : t.queue = []) (h : t.extractBrace cs = .ok (token, t')) :
    t'.measure < 3 * cs.length + 3 := by
  unfold extractBrace at h
  rw [ht] at h
  cases hx : extractUntil isSpaceOrRightBrace t.text .plain cs with
  | error e =>
    rw [hx] at h
    cases h
  | ok r =>
    obtain ⟨name, rest⟩ := r
    have hrest := length_extractUntil_le hx
    have hskip := length_skipWs_le rest
    rw [hx] at h
    simp only [bind, Except.bind] at h
    split at h
    · have := measure_closeBrace h
      simp only [List.length_nil] at this
      omega
    · split at h
      · rename_i c cs' hc
        rw [hc] at hskip
        split at h
        · cases hy : extractUntil isRightBrace t.text .plain (c :: cs') with
          | error e =>
            rw [hy] at h
            cases h
          | ok r =>
            have hrest' := length_extractUntil_le hy
            rw [hy] at h
            have := measure_closeBrace h
            simp at this
            omega
        · have := measure_closeBrace h
          simp at this hskip
          omega
      · have := measure_closeBrace h
        simp at this
        omega

/-- A token that is not empty brings the end of the text nearer. -/
theorem measure_next (h : t.next = .ok (token, t'))
    (hne : token ≠ "") : t'.measure < t.measure := by
  unfold next at h
  split at h
  · rename_i tok queue hq
    cases h
    simp [measure, hq]
  · rename_i hq
    have hskip := length_skipWs_le t.rest
    split at h
    · cases h
      exact absurd rfl hne
    · rename_i c cs hc
      rw [hc] at hskip
      simp only [List.length_cons] at hskip
      simp only [measure, hq, List.length_nil]
      split at h
      · split at h
        · rename_i d ds
          simp only [List.length_cons] at hskip
          split at h <;> cases h <;> simp only [List.length_cons, hq, List.length_nil] <;> omega
        · cases h
          simp only [hq, List.length_nil]
          omega
      · rename_i hspecial
        unfold extractToken at h
        split at h
        · have := measure_extractBrace hq h
          simp only [measure] at this
          omega
        · obtain ⟨⟨token', rest'⟩, hx, heq⟩ := map_eq_ok h
          cases heq
          have hdelim : isDelimiter c = false := by
            simp [isDelimiter, isspace_of_skipWs hc, hspecial]
          have := length_extractUntil_lt hdelim hx
          simp only [List.length_cons] at this
          simp only [hq, List.length_nil]
          omega

end ExpTokenizer

end CentreonBroker.Bam
