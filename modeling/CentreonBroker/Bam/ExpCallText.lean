import CentreonBroker.Bam.ExpCalls

/-!
# The texts of function calls

A text writes the tokens of a call with any white space, with backslashes and with quotes. The
tokenizer gives the tokens back, so the parser finds the postfix form of the call in each of its
texts, or in none of them.
-/

namespace CentreonBroker.Bam.ExpParser

open CallExpr

open ExpTokenizer (isDelimiter isSpecialChar isspace skipWs extractUntil)

/-- Characters as they are, or behind a backslash. -/
inductive Escaped : List Char → List Char → Prop
  | nil : Escaped [] []
  | plain {c w cs} : isDelimiter c = false → c ∉ ['\'', '"', '\\'] → Escaped w cs →
      Escaped (c :: w) (c :: cs)
  | slash {c w cs} : Escaped w cs → Escaped (c :: w) ('\\' :: c :: cs)

/-- How a token is written in front of some text: a symbol, or anything else as it is, with
backslashes or between quotes, up to a delimiter. -/
inductive Token (text : List Char) : String → List Char → Prop
  | comma : Token text "," [',']
  | symbol {token} : token ∈ symbols → Ends token text → Token text token token.toList
  | escaped {token cs} : token ≠ "" → Escaped token.toList cs → cs.head? ≠ some '{' →
      (∀ c ∈ text.head?, isDelimiter c = true) → Token text token cs
  | quoted {token} (q : Char) : q = '\'' ∨ q = '"' → token ≠ "" →
      (∀ c ∈ token.toList, c ≠ q ∧ ¬ (q = '"' ∧ c = '\\')) →
      (∀ c ∈ text.head?, isDelimiter c = true) → Token text token (q :: (token.toList ++ [q]))

/-- A text that writes some tokens, with any white space between them. -/
inductive Text : List String → List Char → Prop
  | nil {ws} : (∀ c ∈ ws, isspace c = true) → Text [] ws
  | cons {ws token cs ts text} : (∀ c ∈ ws, isspace c = true) → Token text token cs → Text ts text →
      Text (token :: ts) (ws ++ (cs ++ text))

variable {w : List Char}

theorem escaped_self (h : ∀ c ∈ w, isDelimiter c = false ∧ c ∉ ['\'', '"', '\\']) :
    Escaped w w := by
  induction w with
  | nil => exact .nil
  | cons c w ih =>
    obtain ⟨hdelim, hquote⟩ := h c List.mem_cons_self
    exact .plain hdelim hquote (ih fun d hd => h d (List.mem_cons_of_mem c hd))

variable {text cs : List Char} {ts : List String}

theorem Text.glued {token : String} (htoken : Token text token cs)
    (h : Text ts text) : Text (token :: ts) (cs ++ text) := by
  have hws : ∀ c ∈ ([] : List Char), isspace c = true := by simp
  exact Text.cons hws htoken h

theorem extractUntil_escaped (exp : String) (h : Escaped w cs)
    (htext : ∀ c ∈ text.head?, isDelimiter c = true) :
    extractUntil isDelimiter exp .plain (cs ++ text) = .ok (w, text) := by
  induction h with
  | nil => exact extractUntil_word (w := []) exp (by simp) htext
  | plain hdelim hquote _ ih =>
    simp only [List.mem_cons, List.not_mem_nil, or_false, not_or] at hquote
    rw [List.cons_append, extractUntil, if_neg (by simp [hdelim]),
      if_neg (by simp [hquote.1, hquote.2.1]), if_neg hquote.2.2, ih]
    rfl
  | slash _ ih =>
    rw [List.cons_append, List.cons_append, extractUntil, if_neg (by decide), if_neg (by decide),
      if_pos rfl, extractUntil, ih]
    rfl

theorem extractUntil_quoted (exp : String) {q : Char}
    (hw : ∀ c ∈ w, c ≠ q ∧ ¬ (q = '"' ∧ c = '\\')) (htext : ∀ c ∈ text.head?, isDelimiter c = true) :
    extractUntil isDelimiter exp (.quoted q) (w ++ q :: text) = .ok (w, text) := by
  induction w with
  | nil =>
    have hend := extractUntil_word (w := []) exp (by simp) htext
    rw [List.nil_append, extractUntil, if_pos rfl]
    exact hend
  | cons c w ih =>
    obtain ⟨hquote, hslash⟩ := hw c List.mem_cons_self
    rw [List.cons_append, extractUntil, if_neg hquote, if_neg hslash,
      ih fun d hd => hw d (List.mem_cons_of_mem c hd)]
    rfl

variable {t : ExpTokenizer}

/-- A token that starts with an ordinary character, a quote or a backslash. -/
theorem next_extract {ws : List Char} {c : Char} {w : String}
    (hq : t.queue = []) (hc : isDelimiter c = false) (hbrace : c ≠ '{')
    (hws : ∀ c ∈ ws, isspace c = true) (hrest : t.rest = ws ++ (c :: cs ++ text))
    (hextract : extractUntil isDelimiter t.text .plain (c :: cs ++ text) = .ok (w.toList, text)) :
    t.next = .ok (w, { t with rest := text }) := by
  have hspace : isspace c = false ∧ isSpecialChar c = false := by simpa [isDelimiter] using hc
  have hskip : skipWs t.rest = c :: (cs ++ text) := by
    rw [hrest, skipWs_append hws (by simp [hspace.1])]
    rfl
  rw [List.cons_append] at hextract
  simp only [ExpTokenizer.next, hq, hskip, hspace.2, ExpTokenizer.extractToken, if_neg hbrace, hextract]
  simp [Except.map]

theorem Token.next {ws : List Char} {token : String}
    (h : Token text token cs) (hq : t.queue = []) (hws : ∀ c ∈ ws, isspace c = true)
    (hrest : t.rest = ws ++ (cs ++ text)) : t.next = .ok (token, { t with rest := text }) ∧ token ≠ "" := by
  cases h with
  | comma =>
    refine ⟨next_single hq ?_ rfl (fun _ _ => rfl), by decide⟩
    rw [hrest]
    exact skipWs_append hws fun c hc => by
      cases hc
      rfl
  | symbol hmem hends =>
    refine ⟨next_symbol hq hmem hends hws hrest, ?_⟩
    rintro rfl
    revert hmem
    decide
  | escaped hne hescaped hbrace hdelim =>
    refine ⟨?_, hne⟩
    have hextract := extractUntil_escaped t.text hescaped hdelim
    cases cs with
    | nil =>
      generalize hw : token.toList = w at hescaped
      cases hescaped
      exact absurd (String.toList_eq_nil_iff.mp hw) hne
    | cons c cs =>
      have hc : isDelimiter c = false := by
        generalize token.toList = w at hescaped
        cases hescaped with
        | plain hc => exact hc
        | slash => decide
      exact next_extract hq hc (fun heq => hbrace (congrArg some heq)) hws hrest hextract
  | quoted q hquote hne hchars hdelim =>
    refine ⟨?_, hne⟩
    have hc : isDelimiter q = false ∧ q ≠ '{' := by
      rcases hquote with rfl | rfl <;> exact ⟨by decide, by decide⟩
    refine next_extract hq hc.1 hc.2 hws hrest ?_
    rw [List.cons_append, List.append_assoc, extractUntil, if_neg (by simp [hc.1]), if_pos hquote]
    exact extractUntil_quoted t.text hchars hdelim

theorem Text.tokens (h : Text ts text)
    (hq : t.queue = []) (hrest : t.rest = text) : tokens t = .ok ts := by
  induction h generalizing t with
  | nil hws =>
    have hskip : skipWs t.rest = [] := by
      rw [hrest, skipWs, List.dropWhile_eq_nil_iff]
      exact hws
    have hnext : t.next = .ok ("", { t with rest := [] }) := by
      simp [ExpTokenizer.next, hq, hskip]
    rw [tokens_of_next hnext, if_pos rfl]
  | cons hws htoken _ ih =>
    rename_i ws token cs ts text _
    obtain ⟨hnext, hne⟩ := htoken.next hq hws hrest
    rw [tokens_of_next hnext, if_neg hne, ih (t := { t with rest := text }) hq rfl]
    rfl

/-! ## The postfix form of a call -/

/-- The parser gives the postfix form exactly where each call has an argument, and no comma is
followed by a minus or a `NOT`. -/
theorem getPostfix_iff {e : CallExpr} {text : String} (hw : e.Over Word)
    (hts : Prints (.operand 0) [e] ts) (htext : Text ts text.toList) :
    getPostfix text = .ok e.postorder ↔ e.Applied ∧ ts.IsChain NoUnary := by
  have htokens : tokens (.new text) = .ok ts := htext.tokens rfl rfl
  have hparse : ts.IsChain NoUnary → getPostfix text = .ok (e.render (max 1)) := by
    intro hchain
    rw [getPostfix_eq htokens]
    exact hts.parse hw hchain text
  constructor
  · intro h
    -- the unary operators of the result are those that the parser found
    have hchain : ts.IsChain NoUnary := by
      refine isChain_of_countUnary_le ts true ?_
      have hresult := getPostfix_unaries htokens h
      have hwritten := hts.counts ⟨hw, trivial⟩ []
      rw [CallExpr.postorder, countP_render id e hw] at hresult
      simp only [List.append_nil, unariesAll, countUnary, Nat.add_zero] at hwritten
      omega
    refine ⟨?_, hchain⟩
    have heq := (hparse hchain).symm.trans h
    exact (render_eq_iff e).mp (Except.ok.inj heq)
  · rintro ⟨happlied, hchain⟩
    rw [hparse hchain, (render_eq_iff e).mpr happlied]

/--
**Function calls.** The postfix form of a written call is the ones of its arguments, the function and
the number of arguments, exactly where each call has an argument and no comma is followed by a minus
or a `NOT`.
-/
theorem getPostfix_call_iff (f : Func) (args : List CallExpr) (ts : List String) (text : String)
    (hw : (CallExpr.call f args).Over Word) (hts : Prints (.operand 0) [.call f args] ts)
    (htext : Text ts text.toList) :
    getPostfix text = .ok (args.flatMap postorder ++ [f.name, toString args.length]) ↔
      (CallExpr.call f args).Applied ∧ ts.IsChain NoUnary := by
  rw [← getPostfix_iff hw hts htext, CallExpr.postorder, CallExpr.render, renderAll_eq_flatMap]
  rfl

theorem word_letter : ∀ w ∈ ["a", "b"], Word w := by
  intro w hw
  simp only [List.mem_cons, List.not_mem_nil, or_false] at hw
  rcases hw with rfl | rfl <;> exact ⟨by decide, by decide, by decide, by decide, by decide, by decide⟩

/-- A word of ordinary characters, in front of a delimiter. -/
theorem token_ordinary {w : String} (hne : w ≠ "")
    (hw : ∀ c ∈ w.toList, isDelimiter c = false ∧ c ∉ ['\'', '"', '\\', '{'])
    (htext : ∀ c ∈ text.head?, isDelimiter c = true) : Token text w w.toList := by
  refine .escaped hne (escaped_self fun d hd => ⟨(hw d hd).1, fun hmem => (hw d hd).2 ?_⟩) ?_ htext
  · simp only [List.mem_cons, List.not_mem_nil, or_false] at hmem ⊢
    tauto
  · intro hhead
    have hmem := List.mem_of_mem_head? hhead
    exact (hw '{' hmem).2 (by decide)

theorem token_word {w : String} {c : Char} (hne : w ≠ "")
    (hw : ∀ c ∈ w.toList, isDelimiter c = false ∧ c ∉ ['\'', '"', '\\', '{'])
    (hc : isDelimiter c = true) : Token (c :: text) w w.toList := by
  refine token_ordinary hne hw fun d hd => ?_
  obtain rfl := Option.some.inj hd
  exact hc

/-- An argument between parentheses. -/
theorem getPostfix_call_iff_paren :
    getPostfix "MAX(a,(-b))" = .ok ["a", "b", "-u", "MAX", "2"] := by
  have hargs : Prints .arguments [.word "a", .unary .minus (.word "b")]
      (["a"] ++ "," :: ("(" :: ["-", "b"] ++ [")"])) :=
    .argument .word (List.cons_ne_nil _ _)
      (.last_argument (.paren (@Prints.unary 0 .minus _ _ (by decide) .word)))
  have htext : Text ["MAX", "(", "a", ",", "(", "-", "b", ")", ")"] "MAX(a,(-b))".toList :=
    .glued (token_word (by decide) (by simp [isDelimiter, isSpecialChar, isspace]) rfl)
      (.glued (.symbol (by decide) (fun h => by revert h; decide))
      (.glued (token_word (by decide) (by simp [isDelimiter, isSpecialChar, isspace]) rfl) (.glued .comma
      (.glued (.symbol (by decide) (fun h => by revert h; decide))
      (.glued (.symbol (by decide) (fun h => by revert h; decide))
      (.glued (token_word (by decide) (by simp [isDelimiter, isSpecialChar, isspace]) rfl)
      (.glued (.symbol (by decide) (fun h => by revert h; decide))
      (.glued (.symbol (by decide) (fun h => by revert h; decide)) (.nil (by simp))))))))))
  exact (getPostfix_call_iff ⟨"MAX", rfl⟩ [.word "a", .unary .minus (.word "b")] _ "MAX(a,(-b))"
    ⟨word_letter "a" (by decide), word_letter "b" (by decide), trivial⟩ (.call hargs) htext).mpr
    ⟨⟨List.cons_ne_nil _ _, trivial, trivial, trivial⟩, by decide⟩

/-- The same argument without parentheses. -/
theorem not_getPostfix_call : ¬ ∀ (f : Func) (args : List CallExpr) (ts : List String) (text : String),
    (CallExpr.call f args).Over Word → Prints (.operand 0) [.call f args] ts → Text ts text.toList →
      getPostfix text = .ok (args.flatMap postorder ++ [f.name, toString args.length]) := by
  intro h
  have hargs : Prints .arguments [.word "a", .unary .minus (.word "b")] (["a"] ++ "," :: ["-", "b"]) :=
    .argument .word (List.cons_ne_nil _ _)
      (.last_argument (@Prints.unary 0 .minus _ _ (by decide) .word))
  have htext : Text ["MAX", "(", "a", ",", "-", "b", ")"] "MAX(a,-b)".toList :=
    .glued (token_word (by decide) (by simp [isDelimiter, isSpecialChar, isspace]) rfl)
      (.glued (.symbol (by decide) (fun h => by revert h; decide))
      (.glued (token_word (by decide) (by simp [isDelimiter, isSpecialChar, isspace]) rfl) (.glued .comma
      (.glued (.symbol (by decide) (fun h => by revert h; decide))
      (.glued (token_word (by decide) (by simp [isDelimiter, isSpecialChar, isspace]) rfl)
      (.glued (.symbol (by decide) (fun h => by revert h; decide)) (.nil (by simp))))))))
  have hword : (CallExpr.call ⟨"MAX", rfl⟩ [.word "a", .unary .minus (.word "b")]).Over Word :=
    ⟨word_letter "a" (by decide), word_letter "b" (by decide), trivial⟩
  have hget := h ⟨"MAX", rfl⟩ [.word "a", .unary .minus (.word "b")] _ "MAX(a,-b)" hword (.call hargs) htext
  have hchain := ((getPostfix_iff hword (.call hargs) htext).mp hget).2
  revert hchain
  decide

end CentreonBroker.Bam.ExpParser
