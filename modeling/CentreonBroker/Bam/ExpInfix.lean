import CentreonBroker.Bam.ExpCallText

/-!
# Infix expressions and their postfix notation

The expressions that a text of words, operators and parentheses stands for, with the ways to write
each of them: first as tokens, where parentheses are needed around an operator that binds less than
its place asks for, then as a text, with white space between the tokens. They are those without a
call, in the texts where nothing is quoted.
-/

namespace CentreonBroker.Bam.ExpParser

open ExpBuilder (is_operator is_function)

/-! ## Expressions -/

inductive Expr where
  | word (w : String)
  | unary (u : Unary) (e : Expr)
  | binary (b : Binary) (l r : Expr)

namespace Expr

/-- The postorder of an expression. -/
def postorder : Expr → List String
  | word w => [w]
  | unary u e => e.postorder ++ [u.rendered]
  | binary b l r => l.postorder ++ r.postorder ++ [b.token]

/-- All the operands satisfy `P`. -/
def Over (P : String → Prop) : Expr → Prop
  | word w => P w
  | unary _ e => e.Over P
  | binary _ l r => l.Over P ∧ r.Over P

end Expr

/-- A word with no delimiter, quote or brace, which is no operator and no function. -/
structure PlainWord (w : String) : Prop where
  ne_empty : w ≠ ""
  chars : ∀ c ∈ w.toList, ExpTokenizer.isDelimiter c = false ∧ c ∉ ['\'', '"', '{', '}']
  not_operator : is_operator w = false
  not_function : is_function w = false

/--
The tokens write the expression where an operator must bind at least as much as `p`. A binary
operator groups to the left: the same precedence is allowed on its left, and not on its right.
-/
inductive Written : ℕ → Expr → List String → Prop
  | word {p w} : Written p (.word w) [w]
  | paren {p e ts} : Written 0 e ts → Written p e ("(" :: ts ++ [")"])
  | unary {p u e ts} : p ≤ 6 → Written 6 e ts → Written p (.unary u e) (u.token :: ts)
  | binary {p} {b : Binary} {l r ts us} : p ≤ precedence b.token →
      Written (precedence b.token) l ts → Written (precedence b.token + 1) r us →
      Written p (.binary b l r) (ts ++ b.token :: us)

open ExpTokenizer (isspace isSpecialChar isDelimiter)

/-- The text spells the tokens, with any white space before, after and between them. -/
inductive Spelled : List String → List Char → Prop
  | nil {ws} : (∀ c ∈ ws, isspace c = true) → Spelled [] ws
  | cons {ws token ts text} : (∀ c ∈ ws, isspace c = true) → Ends token text →
      Spelled ts text → Spelled (token :: ts) (ws ++ (token.toList ++ text))

/-! ## As expressions with calls -/

variable {ts : List String} {e : Expr} {text : List Char} {token : String}

def Expr.toCall : Expr → CallExpr
  | word w => .word w
  | unary u e => .unary u e.toCall
  | binary b l r => .binary b l.toCall r.toCall

theorem postorder_toCall (e : Expr) : e.toCall.postorder = e.postorder := by
  induction e with
  | word w => rfl
  | unary u e ih => exact congrArg (· ++ [u.rendered]) ih
  | binary b l r ihl ihr => exact congrArg (· ++ [b.token]) (congrArg₂ (· ++ ·) ihl ihr)

theorem applied_toCall (e : Expr) : e.toCall.Applied := by
  induction e with
  | word w => trivial
  | unary u e ih => exact ih
  | binary b l r ihl ihr => exact ⟨ihl, ihr⟩

theorem Expr.Over.toCall {P Q : String → Prop} (hPQ : ∀ w, P w → Q w) (h : e.Over P) :
    e.toCall.Over Q := by
  induction e with
  | word w => exact hPQ w h
  | unary u e ih => exact ih h
  | binary b l r ihl ihr => exact ⟨ihl h.1, ihr h.2⟩

theorem PlainWord.word {w : String} (hw : PlainWord w) : Word w := by
  have hspecial : ∀ c : Char, isDelimiter c = true → w ≠ String.ofList [c] := by
    intro c hc heq
    have hnot := (hw.chars c (by simp [heq])).1
    rw [hc] at hnot
    cases hnot
  exact ⟨hw.ne_empty, hspecial ',' (by decide), hspecial '(' (by decide), hspecial ')' (by decide),
    hw.not_operator, hw.not_function⟩

theorem Written.prints {p : ℕ} (h : Written p e ts) : Prints (.operand p) [e.toCall] ts := by
  induction h with
  | word => exact .word
  | paren _ ih => exact .paren ih
  | unary hp _ ih => exact .unary hp ih
  | binary hp _ _ ihl ihr => exact .binary hp ihl ihr

/-- A token that the tokenizer reads up to a delimiter, as it is. -/
structure Ordinary (w : String) : Prop where
  ne_empty : w ≠ ""
  chars : ∀ c ∈ w.toList, isDelimiter c = false ∧ c ∉ ['\'', '"', '\\', '{']

theorem Ordinary.not_mem_symbols {w : String} (h : Ordinary w) : w ∉ symbols := by
  intro hmem
  have hchars := h.chars
  simp only [symbols, List.mem_cons, List.not_mem_nil, or_false] at hmem
  rcases hmem with rfl | rfl | rfl | rfl | rfl | rfl | rfl | rfl | rfl | rfl | rfl | rfl | rfl |
    rfl | rfl | rfl <;> simp [isDelimiter, isSpecialChar] at hchars

theorem binary_symbol_or_ordinary (hmem : token ∈ binaryTokens) :
    token ∈ symbols ∨ Ordinary token := by
  simp only [binaryTokens, List.mem_cons, List.not_mem_nil, or_false] at hmem
  rcases hmem with rfl | rfl | rfl | rfl | rfl | rfl | rfl | rfl | rfl | rfl | rfl | rfl | rfl |
    rfl | rfl | rfl | rfl | rfl | rfl <;>
    first
    | exact .inl (by decide)
    | exact .inr ⟨by decide, by simp [isDelimiter, isSpecialChar, isspace]⟩

theorem Written.symbol_or_ordinary {p : ℕ} (h : Written p e ts)
    (hw : e.Over fun w => PlainWord w ∧ '\\' ∉ w.toList) :
    ∀ token ∈ ts, token ∈ symbols ∨ Ordinary token := by
  induction h with
  | word =>
    rintro token htoken
    rw [List.mem_singleton.mp htoken]
    refine .inr ⟨hw.1.ne_empty, fun c hc => ⟨(hw.1.chars c hc).1, ?_⟩⟩
    have hquote := (hw.1.chars c hc).2
    have hslash : c ≠ '\\' := fun h => hw.2 (h ▸ hc)
    simp only [List.mem_cons, List.not_mem_nil, or_false, not_or] at hquote ⊢
    exact ⟨hquote.1, hquote.2.1, hslash, hquote.2.2.1⟩
  | paren _ ih =>
    intro token htoken
    simp only [List.cons_append, List.mem_cons, List.mem_append, List.not_mem_nil, or_false]
      at htoken
    rcases htoken with rfl | htoken | rfl
    · exact .inl (by decide)
    · exact ih hw token htoken
    · exact .inl (by decide)
  | unary _ _ ih =>
    rename_i u e ts _ _
    intro token htoken
    rcases List.mem_cons.mp htoken with rfl | htoken
    · cases u
      · exact .inl (by decide)
      · exact .inl (by decide)
      · exact binary_symbol_or_ordinary (by decide)
    · exact ih hw token htoken
  | binary _ _ _ ihl ihr =>
    intro token htoken
    rcases List.mem_append.mp htoken with htoken | htoken
    · exact ihl hw.1 token htoken
    · rcases List.mem_cons.mp htoken with rfl | htoken
      · exact binary_symbol_or_ordinary (Binary.mem _)
      · exact ihr hw.2 token htoken

theorem Spelled.writes (h : Spelled ts text)
    (hts : ∀ token ∈ ts, token ∈ symbols ∨ Ordinary token) : Text ts text := by
  induction h with
  | nil hws => exact .nil hws
  | cons hws hends _ ih =>
    refine .cons hws ?_ (ih fun s hs => hts s (List.mem_cons_of_mem _ hs))
    rcases hts _ List.mem_cons_self with hmem | hord
    · exact .symbol hmem hends
    · rw [Ends, if_neg hord.not_mem_symbols] at hends
      exact token_ordinary hord.ne_empty hord.chars hends

/-- No token is a comma, so that a unary operator is taken for one. -/
theorem isChain_noUnary (hts : ∀ token ∈ ts, token ∈ symbols ∨ Ordinary token) :
    ts.IsChain NoUnary := by
  refine (List.pairwise_of_forall_mem_list fun token htoken _ _ hcomma => ?_).isChain
  rcases hts token htoken with hmem | hord
  · rw [hcomma] at hmem
    exact absurd hmem (by decide)
  · exact absurd (hord.chars ',' (by simp [hcomma])).1 (by decide)

/-- A text of an expression gives its postorder. -/
theorem getPostfix_written {text : String}
    (hw : e.Over fun w => PlainWord w ∧ '\\' ∉ w.toList) (hts : Written 0 e ts)
    (htext : Spelled ts text.toList) : getPostfix text = .ok e.postorder := by
  have hsymbols := hts.symbol_or_ordinary hw
  rw [← postorder_toCall]
  exact (getPostfix_iff (hw.toCall fun _ h => h.1.word) hts.prints (htext.writes hsymbols)).mpr
    ⟨applied_toCall e, isChain_noUnary hsymbols⟩

/--
The parser gives the postorder of an expression for every text of it, and throws on unbalanced
parentheses: those among the tokens, and those of a text where nothing is quoted.
-/
theorem getPostfix_spec :
    (∀ (e : Expr) (ts : List String) (text : String),
      e.Over (fun w => PlainWord w ∧ '\\' ∉ w.toList) → Written 0 e ts →
      Spelled ts text.toList → getPostfix text = .ok e.postorder) ∧
    (∀ (text : String) (ts : List String), tokens (.new text) = .ok ts →
      ¬ Balanced (ts.filterMap tokenParen) → ∃ msg, getPostfix text = .error msg) ∧
    (∀ text : String, Unquoted text.toList → ¬ Balanced (text.toList.filterMap charParen) →
      ∃ msg, getPostfix text = .error msg) :=
  ⟨fun _ _ _ hw hts htext => getPostfix_written hw hts htext,
    fun _ _ hts h => error_of_unbalanced hts h, fun _ hq h => error_of_unquoted hq h⟩

theorem Spelled.glued
    (h : Ends token text) (ht : Spelled ts text) : Spelled (token :: ts) (token.toList ++ text) := by
  have hws : ∀ c ∈ ([] : List Char), isspace c = true := by simp
  exact Spelled.cons hws h ht

theorem Spelled.spaced
    (h : Ends token text) (ht : Spelled ts text) :
    Spelled (token :: ts) (' ' :: (token.toList ++ text)) := by
  have hws : ∀ c ∈ [' '], isspace c = true := by simp [isspace]
  exact Spelled.cons hws h ht

theorem ends_of_delimiter {c : Char} {cs : List Char} (hc : isDelimiter c = true)
    (hne : c ≠ '=') : Ends token (c :: cs) := by
  unfold Ends
  split <;> simp [hc, hne]

theorem getPostfix_spec_examples :
    getPostfix "-a*(b AND NOT c)" = .ok ["a", "-u", "b", "c", "!", "AND", "*"] ∧
    (∃ msg, getPostfix "(" = .error msg) ∧ (∃ msg, getPostfix "(a))" = .error msg) := by
  have hsymbol : ∀ {token text}, token ∈ ["(", ")", "+", "-", "*"] → Ends token text := by
    intro token text h
    simp only [List.mem_cons, List.not_mem_nil, or_false] at h
    rcases h with rfl | rfl | rfl | rfl | rfl <;> simp [Ends, symbols]
  have hletter : ∀ c ∈ ['a', 'b', 'c'], PlainWord (String.ofList [c]) ∧
      '\\' ∉ (String.ofList [c]).toList := by
    intro c hc
    simp only [List.mem_cons, List.not_mem_nil, or_false] at hc
    rcases hc with rfl | rfl | rfl <;>
      exact ⟨⟨by decide, by simp [isDelimiter, isSpecialChar, isspace], by decide, by decide⟩,
        by simp⟩
  have htext : Spelled ["-", "a", "*", "(", "b", "AND", "NOT", "c", ")"]
      ['-', 'a', '*', '(', 'b', ' ', 'A', 'N', 'D', ' ', 'N', 'O', 'T', ' ', 'c', ')'] :=
    .glued (hsymbol (by simp)) (.glued (ends_of_delimiter rfl (by simp))
      (.glued (hsymbol (by simp)) (.glued (hsymbol (by simp))
      (.glued (ends_of_delimiter rfl (by simp)) (.spaced (ends_of_delimiter rfl (by simp))
      (.spaced (ends_of_delimiter rfl (by simp)) (.spaced (ends_of_delimiter rfl (by simp))
      (.glued (hsymbol (by simp)) (.nil (by simp))))))))))
  refine ⟨?_, ?_, ?_⟩
  · have hnot : Written 4 (.unary .not (.word "c")) ["NOT", "c"] := .unary (by decide) .word
    have hand : Written 0 (.binary ⟨"AND", by decide⟩ (.word "b") (.unary .not (.word "c")))
        (["b"] ++ "AND" :: ["NOT", "c"]) :=
      .binary (by decide) .word (.unary (by decide) .word)
    have hminus : Written 5 (.unary .minus (.word "a")) ["-", "a"] := .unary (by decide) .word
    refine getPostfix_spec.1 (.binary ⟨"*", by decide⟩ (.unary .minus (.word "a"))
      (.binary ⟨"AND", by decide⟩ (.word "b") (.unary .not (.word "c"))))
      (["-", "a"] ++ "*" :: ("(" :: (["b"] ++ "AND" :: ["NOT", "c"]) ++ [")"])) _
      ⟨hletter 'a' (by simp), hletter 'b' (by simp), hletter 'c' (by simp)⟩
      (.binary (by decide) hminus (.paren hand)) ?_
    simpa using htext
  · have htokens : tokens (.new "(") = .ok ["("] :=
      ((Spelled.glued (hsymbol (by simp)) (.nil (by simp))).writes
        fun token h => .inl (List.mem_singleton.mp h ▸ by decide)).tokens rfl rfl
    exact getPostfix_spec.2.1 "(" ["("] htokens
      (by simp [Balanced, tokenParen, Paren.follow])
  · exact getPostfix_spec.2.2 "(a))" (by simp [Unquoted])
      (by simp [Balanced, charParen, Paren.follow])

/-- The tokens of a text that is one token. -/
theorem tokens_single {text : String} (hne : token ≠ "")
    (h : (ExpTokenizer.new text).next = .ok (token, ⟨text, [], []⟩)) :
    tokens (.new text) = .ok [token] := by
  have hend : tokens ⟨text, [], []⟩ = .ok [] := by
    have hnext : (ExpTokenizer.mk text [] []).next = .ok ("", ⟨text, [], []⟩) := rfl
    rw [tokens_of_next hnext, if_pos rfl]
  rw [tokens_of_next h, if_neg hne, hend]
  rfl

/--
The backslash of a word is lost, as it only quotes the character after it; and a parenthesis
between quotes is not one.
-/
theorem not_getPostfix_spec :
    ¬ (∀ (e : Expr) (ts : List String) (text : String), e.Over PlainWord → Written 0 e ts →
      Spelled ts text.toList → getPostfix text = .ok e.postorder) ∧
    ¬ (∀ text : String, ¬ Balanced (text.toList.filterMap charParen) →
      ∃ msg, getPostfix text = .error msg) := by
  refine ⟨fun h => ?_, fun h => ?_⟩
  · have hword : PlainWord "a\\b" :=
      ⟨by decide, by simp [isDelimiter, isSpecialChar, isspace], by decide, by decide⟩
    have htext : Spelled ["a\\b"] ("a\\b".toList ++ []) :=
      .glued (by simp [Ends, symbols]) (.nil (by simp))
    have hget := h (.word "a\\b") ["a\\b"] "a\\b" hword .word (by simpa using htext)
    have htokens : tokens (.new "a\\b") = .ok ["ab"] := tokens_single (by decide) (by rfl)
    rw [getPostfix_eq htokens] at hget
    have heq : ["ab"] = ["a\\b"] := Except.ok.inj hget
    exact absurd heq (by decide)
  · obtain ⟨msg, hmsg⟩ := h "'(a'" (by simp [Balanced, charParen, Paren.follow])
    have htokens : tokens (.new "'(a'") = .ok ["(a"] := tokens_single (by decide) (by rfl)
    rw [getPostfix_eq htokens] at hmsg
    cases hmsg

end CentreonBroker.Bam.ExpParser
