import CentreonBroker.Bam.ExpParser

/-!
# The shunting yard

The operators of the parser and what reading one of them does: the stack holds, above what was there
before an expression, operators of this expression that bind at least as much as its place asks
for. What is on the output and these operators together make its postfix notation.

Then the symbols that the tokenizer reads, and the parentheses, which the parser asks to be balanced.
-/

namespace CentreonBroker.Bam.ExpParser

open ExpBuilder (is_operator is_function)

/-! ## Operators -/

/-- The binary operators of the table of precedences. -/
def binaryTokens : List String :=
  ["&&", "AND", "||", "OR", "IS", "^", "XOR", "NOT", ">", ">=", "<", "<=", "==", "!=", "+", "-",
    "*", "/", "%"]

structure Binary where
  token : String
  mem : token ∈ binaryTokens

inductive Unary where
  | minus
  | bang
  | not

def Unary.token : Unary → String
  | .minus => "-"
  | .bang => "!"
  | .not => "NOT"

/-- The operator of the postfix notation. -/
def Unary.rendered : Unary → String
  | .minus => "-u"
  | .bang => "!"
  | .not => "!"

/-! ## The shunting yard -/

theorem binary_facts : ∀ token ∈ binaryTokens, is_operator token = true ∧
    is_function token = false ∧ token ≠ "," ∧ token ≠ "(" ∧ token ≠ ")" ∧
    1 ≤ precedence token ∧ precedence token ≤ 5 := by
  decide +kernel

/-- An expression may be read on this stack: no operator of it will pop the top. -/
def Ready (p : ℕ) (stack : List String) : Prop :=
  ∀ top ∈ stack.head?, is_function top = false ∧
    (is_operator top = true → precedence top < p ∨ 5 < p)

theorem Ready.mono {p q : ℕ} {stack : List String} (h : Ready p stack) (hpq : p ≤ q) :
    Ready q stack := by
  intro top htop
  obtain ⟨hf, hop⟩ := h top htop
  refine ⟨hf, fun hop' => ?_⟩
  have := hop hop'
  omega

section Read

variable {exp : String} {y : Yard}

theorem read_unary (u : Unary) (hu : y.canBeUnary = true) :
    y.read exp u.token = .ok { y with stack := u.rendered :: y.stack, canBeUnary := true } := by
  cases u <;> simp [Yard.read, Unary.token, Unary.rendered, hu, is_function, is_operator]

/-- A binary operator pops the operators above `stack`, which bind as much as it does. -/
theorem read_binary (b : Binary) (hu : y.canBeUnary = false) {ops stack : List String}
    (hstack : y.stack = ops ++ stack)
    (hops : ∀ op ∈ ops, is_operator op = true ∧ precedence b.token ≤ precedence op)
    (hready : Ready (precedence b.token) stack) :
    y.read exp b.token = .ok
      { y with output := y.output ++ ops, stack := b.token :: stack, canBeUnary := true } := by
  obtain ⟨hop, hf, hcomma, -, -, -, hle⟩ := binary_facts b.token b.mem
  let p := fun top => is_operator top && decide (precedence b.token ≤ precedence top)
  have hall : ∀ op ∈ ops, p op = true := by
    intro op hmem
    simp [p, (hops op hmem).1, (hops op hmem).2]
  have hstop : stack.takeWhile p = [] ∧ stack.dropWhile p = stack := by
    cases stack with
    | nil => exact ⟨rfl, rfl⟩
    | cons top rest =>
      have htop : p top = false := by
        cases htop : is_operator top with
        | false => simp [p, htop]
        | true =>
          have := (hready top (by simp)).2 htop
          simp only [p, htop, Bool.true_and, decide_eq_false_iff_not]
          omega
      simp [htop]
  have htake : y.stack.takeWhile p = ops := by
    rw [hstack, List.takeWhile_append_of_pos hall, hstop.1, List.append_nil]
  have hdrop : y.stack.dropWhile p = stack := by
    rw [hstack, List.dropWhile_append_of_pos hall, hstop.2]
  simp only [Yard.read, hf, hcomma, hop, hu, Yard.popWhile, p] at htake hdrop ⊢
  simp [htake, hdrop]

theorem read_left : y.read exp "(" = .ok { y with stack := "(" :: y.stack, canBeUnary := true } := by
  simp [Yard.read, is_function, is_operator]

/-- The operators above a left parenthesis, and what is left without them. -/
theorem popWhile_left {ops stack : List String} (hstack : y.stack = ops ++ "(" :: stack)
    (hops : ∀ op ∈ ops, op ≠ "(") :
    y.popWhile (fun top => decide (top ≠ "(")) =
      { y with output := y.output ++ ops, stack := "(" :: stack } := by
  have htake : y.stack.takeWhile (fun top => decide (top ≠ "(")) = ops := by
    rw [hstack, List.takeWhile_append_of_pos (by simpa using hops)]
    simp
  have hdrop : y.stack.dropWhile (fun top => decide (top ≠ "(")) = "(" :: stack := by
    rw [hstack, List.dropWhile_append_of_pos (by simpa using hops)]
    simp
  rw [Yard.popWhile, htake, hdrop]

/-- A right parenthesis pops the operators above the left one. -/
theorem read_right {ops stack : List String} (hstack : y.stack = ops ++ "(" :: stack)
    (hops : ∀ op ∈ ops, op ≠ "(") (hf : ∀ top ∈ stack.head?, is_function top = false) :
    y.read exp ")" = .ok
      { y with output := y.output ++ ops, stack := stack, canBeUnary := false } := by
  have hpop : ∀ z : Yard, z.stack = stack → z.popFunction = z := by
    rintro z rfl
    unfold Yard.popFunction
    split
    · rfl
    · rename_i f rest heq
      rw [hf f (by simp [heq])]
      rfl
  simp only [Yard.read, popWhile_left hstack hops]
  simp [is_function, is_operator, hpop]

end Read

variable {ts : List String}

theorem unwind_ops (exp : String) {ops : List String} (hops : ∀ op ∈ ops, op ≠ "(")
    (output : List String) : unwind exp output ops = .ok (output ++ ops) := by
  induction ops generalizing output with
  | nil => simp [unwind]
  | cons op ops ih =>
    rw [unwind, if_neg (hops op List.mem_cons_self),
      ih fun o ho => hops o (List.mem_cons_of_mem op ho)]
    simp

/-! ## From a text to its tokens -/

open ExpTokenizer (isspace isSpecialChar isDelimiter isDouble skipWs extractUntil)

/-- The tokens made of special characters. -/
def symbols : List String :=
  ["(", ")", "+", "-", "*", "/", "%", ">", ">=", "<", "<=", "==", "!=", "!", "&&", "||"]

/--
The text after a token does not go on with it: a word, or an operator written with ordinary
characters as `AND` or `^`, is followed by a delimiter, and `!`, `<` and `>` not by `=`.
-/
def Ends (token : String) (text : List Char) : Prop :=
  if token ∈ symbols then token ∈ ["!", "<", ">"] → text.head? ≠ some '='
  else ∀ c ∈ text.head?, isDelimiter c = true

variable {text ws : List Char}

theorem skipWs_append (hws : ∀ c ∈ ws, isspace c = true)
    (htext : ∀ c ∈ text.head?, isspace c = false) : skipWs (ws ++ text) = text := by
  rw [skipWs, List.dropWhile_append_of_pos hws]
  cases text with
  | nil => rfl
  | cons c text => rw [List.dropWhile_cons_of_neg (by simp [htext c (by simp)])]

/-- A word without quote or backslash is extracted up to the delimiter. -/
theorem extractUntil_word (exp : String) {w : List Char}
    (hw : ∀ c ∈ w, isDelimiter c = false ∧ c ∉ ['\'', '"', '{', '\\'])
    (htext : ∀ c ∈ text.head?, isDelimiter c = true) :
    extractUntil isDelimiter exp .plain (w ++ text) = .ok (w, text) := by
  induction w with
  | nil =>
    cases text with
    | nil => rfl
    | cons c text => rw [List.nil_append, extractUntil, if_pos (htext c (by simp))]
  | cons c w ih =>
    obtain ⟨hdelim, hquote⟩ := hw c List.mem_cons_self
    simp only [List.mem_cons, List.not_mem_nil, or_false, not_or] at hquote
    obtain ⟨h₁, h₂, -, h₃⟩ := hquote
    rw [List.cons_append, extractUntil, if_neg (by simp [hdelim]), if_neg (by simp [h₁, h₂]),
      if_neg h₃, ih fun d hd => hw d (List.mem_cons_of_mem c hd)]
    rfl

variable {t : ExpTokenizer}

/-- A symbol of one character is read alone, unless a second one makes another symbol with it. -/
theorem next_single {c : Char} (hq : t.queue = [])
    (hskip : skipWs t.rest = c :: text) (hspecial : isSpecialChar c = true)
    (hdouble : ∀ d ∈ text.head?, isDouble c d = false) :
    t.next = .ok (String.ofList [c], { t with rest := text }) := by
  simp only [ExpTokenizer.next, hq, hskip, hspecial]
  cases text with
  | nil => rfl
  | cons d ds => simp [hdouble d (by simp)]

theorem next_double {c d : Char} (hq : t.queue = [])
    (hskip : skipWs t.rest = c :: d :: text) (hspecial : isSpecialChar c = true)
    (hdouble : isDouble c d = true) :
    t.next = .ok (String.ofList [c, d], { t with rest := text }) := by
  simp only [ExpTokenizer.next, hq, hskip, hspecial, hdouble]
  rfl

variable {token : String}

theorem next_symbol (hq : t.queue = [])
    (hmem : token ∈ symbols) (hends : Ends token text) (hws : ∀ c ∈ ws, isspace c = true)
    (hrest : t.rest = ws ++ (token.toList ++ text)) :
    t.next = .ok (token, { t with rest := text }) := by
  rw [Ends, if_pos hmem] at hends
  have hskip : ∀ c ∈ token.toList.head?, isspace c = false →
      skipWs t.rest = token.toList ++ text := by
    intro c hc hspace
    rw [hrest]
    refine skipWs_append hws fun d hd => ?_
    cases hl : token.toList with
    | nil => simp [hl] at hc
    | cons e es =>
      rw [hl] at hc hd
      cases hc
      cases hd
      exact hspace
  -- `!`, `<` and `>` make a token with `=` only, which does not follow
  have hsingle : ∀ {c : Char}, token = String.ofList [c] → token ∈ ["!", "<", ">"] →
      ∀ d ∈ text.head?, isDouble c d = false := by
    intro c hc hmem' d hd
    have hne : d ≠ '=' := by
      rintro rfl
      exact hends hmem' hd
    simp only [List.mem_cons, List.not_mem_nil, or_false] at hmem'
    rcases hmem' with rfl | rfl | rfl <;> obtain rfl := (List.cons.inj (String.ofList_injective hc)).1 <;>
      simp [isDouble, hne]
  simp only [symbols, List.mem_cons, List.not_mem_nil, or_false] at hmem
  rcases hmem with rfl | rfl | rfl | rfl | rfl | rfl | rfl | rfl | rfl | rfl | rfl | rfl | rfl |
    rfl | rfl | rfl
  · exact next_single hq (hskip '(' rfl rfl) rfl fun _ _ => rfl
  · exact next_single hq (hskip ')' rfl rfl) rfl fun _ _ => rfl
  · exact next_single hq (hskip '+' rfl rfl) rfl fun _ _ => rfl
  · exact next_single hq (hskip '-' rfl rfl) rfl fun _ _ => rfl
  · exact next_single hq (hskip '*' rfl rfl) rfl fun _ _ => rfl
  · exact next_single hq (hskip '/' rfl rfl) rfl fun _ _ => rfl
  · exact next_single hq (hskip '%' rfl rfl) rfl fun _ _ => rfl
  · exact next_single hq (hskip '>' rfl rfl) rfl (hsingle rfl (by simp))
  · exact next_double hq (hskip '>' rfl rfl) rfl rfl
  · exact next_single hq (hskip '<' rfl rfl) rfl (hsingle rfl (by simp))
  · exact next_double hq (hskip '<' rfl rfl) rfl rfl
  · exact next_double hq (hskip '=' rfl rfl) rfl rfl
  · exact next_double hq (hskip '!' rfl rfl) rfl rfl
  · exact next_single hq (hskip '!' rfl rfl) rfl (hsingle rfl (by simp))
  · exact next_double hq (hskip '&' rfl rfl) rfl rfl
  · exact next_double hq (hskip '|' rfl rfl) rfl rfl

theorem tokens_of_next {t' : ExpTokenizer} (h : t.next = .ok (token, t')) :
    tokens t = if token = "" then .ok [] else (tokens t').map (token :: ·) := by
  rw [tokens]
  split
  · rename_i e he
    rw [h] at he
    cases he
  · rename_i token' t'' he
    rw [h] at he
    cases he
    split <;> rfl

theorem getPostfix_eq {text : String} (h : tokens (.new text) = .ok ts) :
    getPostfix text
      = ts.foldlM (Yard.read text) {} >>= fun y => unwind text y.output y.stack := by
  rw [getPostfix, h]
  rfl

/-! ## Unbalanced parentheses -/

inductive Paren where
  | left
  | right

/-- The parentheses that are open after one more, when it is allowed. -/
def Paren.follow : ℕ → Paren → Option ℕ
  | n, .left => some (n + 1)
  | 0, .right => none
  | n + 1, .right => some n

/-- Every right parenthesis closes a left one, and none is left open. -/
def Balanced (ps : List Paren) : Prop := ps.foldlM Paren.follow 0 = some 0

def charParen (c : Char) : Option Paren :=
  if c = '(' then some .left else if c = ')' then some .right else none

def tokenParen (token : String) : Option Paren :=
  if token = "(" then some .left else if token = ")" then some .right else none

theorem count_dropWhile {p : String → Bool} (hp : ∀ s, p s = true → s ≠ "(") (stack : List String) :
    (stack.dropWhile p).count "(" = stack.count "(" := by
  induction stack with
  | nil => rfl
  | cons top stack ih =>
    cases htop : p top with
    | true =>
      rw [List.dropWhile_cons_of_pos htop, ih, List.count_cons_of_ne (hp top htop)]
    | false => rw [List.dropWhile_cons_of_neg (by simp [htop])]

theorem Yard.popFunction_count (y : Yard) : y.popFunction.stack.count "(" = y.stack.count "(" := by
  unfold popFunction
  split
  · rfl
  · rename_i f stack heq
    split
    · rename_i hf
      have hne : f ≠ "(" := by
        rintro rfl
        simp [is_function] at hf
      rw [heq, List.count_cons_of_ne hne]
    · rfl

/-- The left parentheses on the stack are those that are open. -/
theorem Yard.read_parens {exp : String} {y y' : Yard} (h : y.read exp token = .ok y') :
    (tokenParen token).toList.foldlM Paren.follow (y.stack.count "(")
      = some (y'.stack.count "(") := by
  have hnone : ∀ {s : String}, is_function s = true ∨ is_operator s = true ∨ s = "," →
      s ≠ "(" ∧ s ≠ ")" := by
    intro s hs
    constructor <;> rintro rfl <;> simp [is_function, is_operator] at hs
  have hskip : ∀ {s : String}, s ≠ "(" → s ≠ ")" → tokenParen s = none := by
    intro s h₁ h₂
    rw [tokenParen, if_neg h₁, if_neg h₂]
  unfold read at h
  split at h
  · rename_i hf
    cases h
    obtain ⟨h₁, h₂⟩ := hnone (.inl hf)
    rw [hskip h₁ h₂, List.count_cons_of_ne h₁]
    rfl
  · split at h
    · rename_i hcomma
      obtain ⟨h₁, h₂⟩ := hnone (.inr (.inr hcomma))
      rw [hskip h₁ h₂]
      dsimp only at h
      split at h
      · cases h
      · split at h
        · cases h
        · cases h
          simp only [popWhile, count_dropWhile (fun s => of_decide_eq_true)]
          rfl
    · split at h
      · rename_i hop
        obtain ⟨h₁, h₂⟩ := hnone (.inr (.inl hop))
        rw [hskip h₁ h₂]
        split at h
        · cases h
          rw [List.count_cons_of_ne (by decide)]
          rfl
        · split at h
          · cases h
            rw [List.count_cons_of_ne (by decide)]
            rfl
          · cases h
            have hp : ∀ s, (is_operator s && decide (precedence token ≤ precedence s)) = true →
                s ≠ "(" := by
              intro s hs
              exact (hnone (.inr (.inl (Bool.and_eq_true_iff.mp hs).1))).1
            rw [List.count_cons_of_ne h₁]
            simp only [popWhile, count_dropWhile hp]
            rfl
      · split at h
        · rename_i hleft
          cases h
          subst hleft
          simp [tokenParen, Paren.follow]
        · split at h
          · rename_i hright
            subst hright
            dsimp only at h
            split at h
            · cases h
            · rename_i top stack heq
              cases h
              -- the left parenthesis on which the loop stops is popped
              have hcount := count_dropWhile (p := fun top => decide (top ≠ "("))
                (fun s => of_decide_eq_true) y.stack
              have htop : top = "(" := by
                have := List.head?_dropWhile_not (fun top => decide (top ≠ "(")) y.stack
                simp only [popWhile] at heq
                rw [heq] at this
                simpa using this
              simp only [popWhile] at heq
              rw [heq, htop, List.count_cons_self] at hcount
              rw [← hcount]
              simp [tokenParen, Paren.follow, popFunction_count]
          · rename_i h₁ h₂
            cases h
            rw [hskip h₁ h₂]
            rfl

theorem foldlM_read_parens {exp : String} {y y' : Yard}
    (h : ts.foldlM (Yard.read exp) y = .ok y') :
    (ts.filterMap tokenParen).foldlM Paren.follow (y.stack.count "(")
      = some (y'.stack.count "(") := by
  induction ts generalizing y with
  | nil =>
    cases h
    rfl
  | cons token ts ih =>
    rw [List.foldlM_cons] at h
    cases hread : y.read exp token with
    | error e =>
      rw [hread] at h
      cases h
    | ok z =>
      rw [hread] at h
      have hstep := Yard.read_parens hread
      have hrest := ih h
      cases hp : tokenParen token with
      | none =>
        rw [hp] at hstep
        rw [List.filterMap_cons_none hp, Option.some.inj hstep]
        exact hrest
      | some q =>
        rw [hp] at hstep
        simp only [Option.toList_some, List.foldlM_cons, List.foldlM_nil, bind_pure] at hstep
        rw [List.filterMap_cons_some hp, List.foldlM_cons, hstep]
        exact hrest

theorem unwind_parens {exp : String} {stack : List String} {output result : List String}
    (h : unwind exp output stack = .ok result) : stack.count "(" = 0 := by
  induction stack generalizing output with
  | nil => rfl
  | cons top stack ih =>
    rw [unwind] at h
    split at h
    · cases h
    · rename_i hne
      rw [List.count_cons_of_ne hne]
      exact ih h

/-- When the parser returns, the parentheses among the tokens were balanced. -/
theorem getPostfix_balanced {text : String} {result : List String}
    (hts : tokens (.new text) = .ok ts) (h : getPostfix text = .ok result) :
    Balanced (ts.filterMap tokenParen) := by
  rw [getPostfix_eq hts] at h
  cases hfold : ts.foldlM (Yard.read text) {} with
  | error e =>
    rw [hfold] at h
    cases h
  | ok y =>
    rw [hfold] at h
    have := foldlM_read_parens hfold
    rwa [unwind_parens h] at this

/-- A text with no quote, backslash or left brace, where a parenthesis is always a token. -/
def Unquoted (text : List Char) : Prop := ∀ c ∈ text, c ∉ ['\'', '"', '{', '\\']

theorem extractUntil_unquoted (exp : String) (h : Unquoted text) :
    extractUntil isDelimiter exp .plain text
      = .ok (text.takeWhile fun c => !isDelimiter c, text.dropWhile fun c => !isDelimiter c) := by
  have hword : ∀ c ∈ text.takeWhile (fun c => !isDelimiter c), isDelimiter c = false ∧
      c ∉ ['\'', '"', '{', '\\'] := by
    intro c hc
    exact ⟨by simpa using List.mem_takeWhile_imp hc, h c ((List.takeWhile_prefix _).subset hc)⟩
  have hrest : ∀ c ∈ (text.dropWhile fun c => !isDelimiter c).head?, isDelimiter c = true := by
    intro c hc
    have := List.head?_dropWhile_not (fun c => !isDelimiter c) text
    rw [hc] at this
    simpa using this
  have := extractUntil_word exp hword hrest
  rwa [List.takeWhile_append_dropWhile] at this

theorem filterMap_charParen_nil {cs : List Char} (h : ∀ c ∈ cs, c ≠ '(' ∧ c ≠ ')') :
    cs.filterMap charParen = [] := by
  refine List.filterMap_eq_nil_iff.mpr fun c hc => ?_
  rw [charParen, if_neg (h c hc).1, if_neg (h c hc).2]

/-- White space is skipped with no parenthesis. -/
theorem filterMap_skipWs (text : List Char) :
    (skipWs text).filterMap charParen = text.filterMap charParen := by
  conv_rhs => rw [← List.takeWhile_append_dropWhile (p := isspace) (l := text)]
  have hws : ∀ c ∈ text.takeWhile isspace, c ≠ '(' ∧ c ≠ ')' := by
    intro c hc
    have := List.mem_takeWhile_imp hc
    constructor <;> rintro rfl <;> cases this
  rw [List.filterMap_append, filterMap_charParen_nil hws, List.nil_append, skipWs]

theorem tokenParen_ofList (cs : List Char) :
    tokenParen (String.ofList cs) = if cs = ['('] then some .left
      else if cs = [')'] then some .right else none := by
  have hleft : String.ofList cs = String.ofList ['('] ↔ cs = ['('] := String.ofList_inj
  have hright : String.ofList cs = String.ofList [')'] ↔ cs = [')'] := String.ofList_inj
  rw [show String.ofList ['('] = "(" from rfl] at hleft
  rw [show String.ofList [')'] = ")" from rfl] at hright
  simp only [tokenParen, hleft, hright]

/-- The next token of a text without quotes takes its parentheses from the text. -/
theorem next_unquoted (hq : t.queue = []) (h : Unquoted t.rest) :
    ∃ token rest, t.next = .ok (token, { t with rest := rest }) ∧ Unquoted rest ∧
      t.rest.filterMap charParen = (tokenParen token).toList ++ rest.filterMap charParen ∧
      (token = "" → rest = []) := by
  have hskip : Unquoted (skipWs t.rest) :=
    fun c hc => h c ((List.dropWhile_suffix _).subset hc)
  rw [← filterMap_skipWs]
  cases hrest : skipWs t.rest with
  | nil =>
    refine ⟨"", [], ?_, (fun c hc => by cases hc), rfl, fun _ => rfl⟩
    simp [ExpTokenizer.next, hq, hrest]
  | cons c cs =>
    rw [hrest] at hskip
    have hcs : Unquoted cs := fun d hd => hskip d (List.mem_cons_of_mem c hd)
    cases hspecial : isSpecialChar c with
    | true =>
      by_cases hdouble : ∃ d ds, cs = d :: ds ∧ isDouble c d = true
      · obtain ⟨d, ds, rfl, hdouble⟩ := hdouble
        have hne : ∀ e ∈ [c, d], e ≠ '(' ∧ e ≠ ')' := by
          intro e he
          simp only [List.mem_cons, List.not_mem_nil, or_false] at he
          constructor <;> rintro rfl <;> rcases he with rfl | rfl <;> simp [isDouble] at hdouble <;>
            grind
        refine ⟨_, ds, next_double hq hrest hspecial hdouble,
          fun e he => hcs e (List.mem_cons_of_mem d he), ?_, fun hempty => ?_⟩
        · rw [tokenParen_ofList, if_neg (by simp), if_neg (by simp),
            show c :: d :: ds = [c, d] ++ ds from rfl, List.filterMap_append,
            filterMap_charParen_nil hne]
          rfl
        · simp at hempty
      · refine ⟨_, cs, next_single hq hrest hspecial fun d hd => ?_, hcs, ?_, fun hempty => ?_⟩
        · cases cs with
          | nil => cases hd
          | cons d' ds =>
            cases hd
            simpa using mt (fun hd => ⟨d, ds, rfl, hd⟩) hdouble
        · rw [tokenParen_ofList, List.filterMap_cons, charParen]
          by_cases h₁ : c = '('
          · simp [h₁]
          · by_cases h₂ : c = ')' <;> simp [h₁, h₂]
        · simp at hempty
    | false =>
      have hquote := hskip c List.mem_cons_self
      have hbrace : c ≠ '{' := by
        rintro rfl
        simp at hquote
      have hnot : ∀ d ∈ (c :: cs).takeWhile (fun c => !isDelimiter c), d ≠ '(' ∧ d ≠ ')' := by
        intro d hd
        have := List.mem_takeWhile_imp hd
        constructor <;> rintro rfl <;> cases this
      have hfirst : isDelimiter c = false := by
        simp [isDelimiter, hspecial, ExpTokenizer.isspace_of_skipWs hrest]
      refine ⟨String.ofList ((c :: cs).takeWhile fun c => !isDelimiter c),
        (c :: cs).dropWhile fun c => !isDelimiter c, ?_,
        fun d hd => hskip d ((List.dropWhile_suffix _).subset hd), ?_, fun hempty => ?_⟩
      · simp only [ExpTokenizer.next, hq, hrest, hspecial, ExpTokenizer.extractToken,
          if_neg hbrace, extractUntil_unquoted t.text hskip]
        rfl
      · have hword : ∀ p : Char, (p = '(' ∨ p = ')') →
            (c :: cs).takeWhile (fun c => !isDelimiter c) ≠ [p] := by
          intro p hp heq
          have := hnot p (by simp [heq])
          tauto
        rw [tokenParen_ofList, if_neg (hword _ (.inl rfl)), if_neg (hword _ (.inr rfl))]
        conv_lhs =>
          rw [← List.takeWhile_append_dropWhile (p := fun c => !isDelimiter c) (l := c :: cs)]
        rw [List.filterMap_append, filterMap_charParen_nil hnot]
        rfl
      · simp [hfirst] at hempty

/-- In a text without quotes, the parentheses are tokens, and nothing else makes such tokens. -/
theorem tokens_parens (hq : t.queue = []) (h : Unquoted t.rest)
    (hts : tokens t = .ok ts) :
    ts.filterMap tokenParen = t.rest.filterMap charParen := by
  induction hn : t.measure using Nat.strong_induction_on generalizing t ts with
  | h n ih =>
    obtain ⟨token, rest, hnext, hrest, hparens, hempty⟩ := next_unquoted hq h
    rw [tokens_of_next hnext] at hts
    split at hts
    · rename_i htoken
      cases hts
      rw [hparens, htoken, hempty htoken]
      rfl
    · rename_i htoken
      obtain ⟨us, hus, heq⟩ := ExpTokenizer.map_eq_ok hts
      have hlt := ExpTokenizer.measure_next hnext htoken
      have := ih _ (hn ▸ hlt) (t := { t with rest := rest }) hq hrest hus rfl
      rw [← heq, hparens, List.filterMap_cons, this]
      cases tokenParen token <;> rfl

theorem error_of_unbalanced {text : String} (hts : tokens (.new text) = .ok ts)
    (h : ¬ Balanced (ts.filterMap tokenParen)) : ∃ msg, getPostfix text = .error msg := by
  cases hget : getPostfix text with
  | error msg => exact ⟨msg, rfl⟩
  | ok result => exact absurd (getPostfix_balanced hts hget) h

theorem error_of_unquoted {text : String} (hq : Unquoted text.toList)
    (h : ¬ Balanced (text.toList.filterMap charParen)) : ∃ msg, getPostfix text = .error msg := by
  cases hts : tokens (.new text) with
  | error msg => exact ⟨msg, by rw [getPostfix, hts]; rfl⟩
  | ok ts =>
    refine error_of_unbalanced hts ?_
    rwa [tokens_parens rfl hq hts]

end CentreonBroker.Bam.ExpParser
