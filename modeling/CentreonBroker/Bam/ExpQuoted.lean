import CentreonBroker.Bam.ExpMeaning

/-!
# Names between quotes

The tokenizer takes a name between double quotes back, whatever its characters. It does not say
that there were quotes: the parser and the builder read the name as they read any other token, so
that a name which is an operator, a function, a comma or a parenthesis is taken for it.
-/

namespace CentreonBroker.Bam.ExpParser

open CallExpr ExpBuilder

open ExpTokenizer (isDelimiter isspace skipWs extractUntil)

/-! ## Texts with quoted names -/

/-- What an expression is made of: tokens, and names that stand between double quotes. -/
inductive Piece where
  | token (w : String)
  | name (w : String)

def Piece.content : Piece → String
  | .token w => w
  | .name w => w

/-- A character between double quotes. -/
def quotedChar (c : Char) : List Char := if c = '"' ∨ c = '\\' then ['\\', c] else [c]

/-- A name between double quotes, where a backslash stands before its quotes and backslashes. -/
def quotedName (w : String) : List Char := '"' :: (w.toList.flatMap quotedChar ++ ['"'])

/-- A text that writes some pieces, with any white space between them. -/
inductive Quoted : List Piece → List Char → Prop
  | nil {ws} : (∀ c ∈ ws, isspace c = true) → Quoted [] ws
  | token {ws w cs ps text} : (∀ c ∈ ws, isspace c = true) → Token text w cs → Quoted ps text →
      Quoted (.token w :: ps) (ws ++ (cs ++ text))
  | name {ws w ps text} : (∀ c ∈ ws, isspace c = true) → w ≠ "" →
      (∀ c ∈ text.head?, isDelimiter c = true) → Quoted ps text →
      Quoted (.name w :: ps) (ws ++ (quotedName w ++ text))

variable {text : List Char}

theorem extractUntil_flatMap_quotedChar (exp : String) {w : List Char}
    (htext : ∀ c ∈ text.head?, isDelimiter c = true) :
    extractUntil isDelimiter exp (.quoted '"') (w.flatMap quotedChar ++ '"' :: text) =
      .ok (w, text) := by
  induction w with
  | nil =>
    have hend := extractUntil_word (w := []) exp (by simp) htext
    rw [List.flatMap_nil, List.nil_append, extractUntil, if_pos rfl]
    exact hend
  | cons c w ih =>
    rw [List.flatMap_cons, List.append_assoc, quotedChar]
    split
    · -- the backslash is dropped, and what follows it is kept
      rw [List.cons_append, extractUntil, if_neg (by decide), if_pos ⟨rfl, rfl⟩, List.cons_append,
        extractUntil, List.nil_append, ih]
      rfl
    · rename_i hc
      rw [not_or] at hc
      rw [List.cons_append, extractUntil, if_neg hc.1, if_neg (fun h => hc.2 h.2), List.nil_append, ih]
      rfl

variable {w : String}

theorem next_quotedName {t : ExpTokenizer} {ws : List Char} (hq : t.queue = [])
    (hws : ∀ c ∈ ws, isspace c = true) (htext : ∀ c ∈ text.head?, isDelimiter c = true)
    (hrest : t.rest = ws ++ (quotedName w ++ text)) : t.next = .ok (w, { t with rest := text }) := by
  refine next_extract hq (by decide) (by decide) hws hrest ?_
  rw [List.cons_append, List.append_assoc, extractUntil, if_neg (by decide), if_pos (.inr rfl)]
  exact extractUntil_flatMap_quotedChar t.text htext

variable {ps : List Piece}

/-- The tokenizer finds each name as it is. -/
theorem Quoted.tokens (h : Quoted ps text) {t : ExpTokenizer}
    (hq : t.queue = []) (hrest : t.rest = text) : tokens t = .ok (ps.map Piece.content) := by
  induction h generalizing t with
  | nil hws => exact (Text.nil hws).tokens hq hrest
  | token hws htoken _ ih =>
    rename_i ws w cs ps text _
    obtain ⟨hnext, hne⟩ := htoken.next hq hws hrest
    rw [tokens_of_next hnext, if_neg hne, @ih { t with rest := text } hq rfl]
    rfl
  | name hws hne htext _ ih =>
    rename_i ws w ps text _
    have hnext := next_quotedName hq hws htext hrest
    rw [tokens_of_next hnext, if_neg hne, @ih { t with rest := text } hq rfl]
    rfl

/-! ## Expressions with the same structure -/

section Rename

variable {R : String → String → Prop}

/-- Two postfix forms that differ in names only, or two errors. -/
def SameStructure (R : String → String → Prop) :
    Except String (List String) → Except String (List String) → Prop
  | .ok xs, .ok ys => List.Forall₂ (fun x y => x = y ∨ R x y) xs ys
  | .error _, .error _ => True
  | _, _ => False

/-- Two pieces that are the same, or names that stand for each other. -/
inductive Renamed (R : String → String → Prop) : Piece → Piece → Prop
  | same (p : Piece) : Renamed R p p
  | name {v w : String} : R v w → Renamed R (.name v) (.name w)

/-- The loop of the parser stands at the same place, with other names on the output. -/
structure Yard.Like (R : String → String → Prop) (y z : Yard) : Prop where
  output : List.Forall₂ (fun x y => x = y ∨ R x y) y.output z.output
  stack : y.stack = z.stack
  arity : y.arity = z.arity
  canBeUnary : y.canBeUnary = z.canBeUnary

/-- Both are states that are alike, or both are errors. -/
def Both (R : String → String → Prop) : Except String Yard → Except String Yard → Prop
  | .ok y, .ok z => Yard.Like R y z
  | .error _, .error _ => True
  | _, _ => False

theorem forall₂_refl (xs : List String) : List.Forall₂ (fun x y => x = y ∨ R x y) xs xs := by
  induction xs with
  | nil => exact .nil
  | cons x xs ih => exact .cons (.inl rfl) ih

theorem Yard.Like.popWhile {y z : Yard} (h : Yard.Like R y z) (p : String → Bool) :
    Yard.Like R (y.popWhile p) (z.popWhile p) := by
  obtain ⟨houtput, hstack, harity, hunary⟩ := h
  refine ⟨?_, ?_, harity, hunary⟩
  · rw [Yard.popWhile, Yard.popWhile, hstack]
    exact List.rel_append houtput (forall₂_refl _)
  · rw [Yard.popWhile, Yard.popWhile, hstack]

theorem Yard.Like.popFunction {y z : Yard} (h : Yard.Like R y z) :
    Yard.Like R y.popFunction z.popFunction := by
  obtain ⟨output, stack, arity, canBeUnary⟩ := y
  obtain ⟨output', stack', arity', canBeUnary'⟩ := z
  obtain ⟨houtput, rfl, rfl, rfl⟩ := h
  unfold Yard.popFunction
  cases stack with
  | nil => exact ⟨houtput, rfl, rfl, rfl⟩
  | cons f stack =>
    by_cases hf : is_function f = true
    · simp only [hf, if_true]
      exact ⟨List.rel_append houtput (forall₂_refl _), rfl, rfl, rfl⟩
    · simp only [hf]
      exact ⟨houtput, rfl, rfl, rfl⟩

/-- A token is read in the same way, wherever names differ on the output. -/
theorem Yard.Like.read {y z : Yard} (h : Yard.Like R y z) (exp exp' token : String) :
    Both R (y.read exp token) (z.read exp' token) := by
  obtain ⟨houtput, hstack, harity, hunary⟩ := h
  have hpop := @Yard.Like.popWhile R y z ⟨houtput, hstack, harity, hunary⟩
  have hleft := hpop fun top => top ≠ "("
  unfold Yard.read
  split
  · exact ⟨houtput, by simp [hstack], by simp [harity], rfl⟩
  · split
    · -- a comma
      have hstack' := hleft.stack
      have harity' := hleft.arity
      simp only
      rw [← hstack', ← harity']
      cases (y.popWhile fun top => top ≠ "(").stack with
      | nil => trivial
      | cons top rest =>
        cases (y.popWhile fun top => top ≠ "(").arity with
        | nil => trivial
        | cons n arity => exact ⟨hleft.output, rfl, rfl, rfl⟩
    · split
      · -- an operator
        rw [hunary]
        split
        · exact ⟨houtput, by simp [hstack], harity, rfl⟩
        · split
          · exact ⟨houtput, by simp [hstack], harity, rfl⟩
          · have hops := hpop fun top => is_operator top && precedence token ≤ precedence top
            exact ⟨hops.output, by simp [hops.stack], hops.arity, rfl⟩
      · split
        · exact ⟨houtput, by simp [hstack], harity, rfl⟩
        · split
          · -- a right parenthesis
            have hstack' := hleft.stack
            simp only
            rw [← hstack']
            cases (y.popWhile fun top => top ≠ "(").stack with
            | nil => trivial
            | cons top rest =>
              have hrest : Yard.Like R { (y.popWhile fun top => top ≠ "(") with stack := rest }
                  { (z.popWhile fun top => top ≠ "(") with stack := rest } :=
                ⟨hleft.output, rfl, hleft.arity, hleft.canBeUnary⟩
              have hfunction := hrest.popFunction
              exact ⟨hfunction.output, hfunction.stack, hfunction.arity, rfl⟩
          · exact ⟨List.rel_append houtput (forall₂_refl _), hstack, harity, rfl⟩

/-- Names that are operands go to the output. -/
theorem Yard.Like.read_name {y z : Yard} (h : Yard.Like R y z) (exp exp' : String) {v w : String}
    (hv : Word v) (hw : Word w) (hvw : R v w) : Both R (y.read exp v) (z.read exp' w) := by
  rw [read_operand hv, read_operand hw]
  exact ⟨List.rel_append h.output (.cons (.inr hvw) .nil), h.stack, h.arity, rfl⟩

theorem Both.foldlM {exp exp' : String} {ps qs : List Piece} (hR : ∀ v w, R v w → Word v ∧ Word w)
    (hps : List.Forall₂ (Renamed R) ps qs) {y z : Yard} (h : Yard.Like R y z) :
    Both R ((ps.map Piece.content).foldlM (Yard.read exp) y)
      ((qs.map Piece.content).foldlM (Yard.read exp') z) := by
  induction hps generalizing y z with
  | nil => exact h
  | cons hp _ ih =>
    rename_i p q ps qs _
    have hstep : Both R (y.read exp p.content) (z.read exp' q.content) := by
      cases hp with
      | same => exact h.read exp exp' p.content
      | name hvw =>
        obtain ⟨hv, hw⟩ := hR _ _ hvw
        exact h.read_name exp exp' hv hw hvw
    rw [List.map_cons, List.map_cons, List.foldlM_cons, List.foldlM_cons]
    cases hy : y.read exp p.content with
    | error e =>
      rw [hy] at hstep
      cases hz : z.read exp' q.content with
      | error e' => trivial
      | ok z' =>
        rw [hz] at hstep
        exact hstep.elim
    | ok y' =>
      rw [hy] at hstep
      cases hz : z.read exp' q.content with
      | error e' =>
        rw [hz] at hstep
        exact hstep.elim
      | ok z' =>
        rw [hz] at hstep
        exact ih hstep

theorem sameStructure_unwind {exp exp' : String} (stack : List String) {output output' : List String}
    (h : List.Forall₂ (fun x y => x = y ∨ R x y) output output') :
    SameStructure R (unwind exp output stack) (unwind exp' output' stack) := by
  induction stack generalizing output output' with
  | nil => exact h
  | cons top stack ih =>
    rw [unwind, unwind]
    split
    · trivial
    · exact ih (List.rel_append h (forall₂_refl _))

/-- **Names that are operands may stand for each other.** -/
theorem sameStructure_getPostfix {ps qs : List Piece} {text text' : String}
    (hR : ∀ v w, R v w → Word v ∧ Word w) (hps : List.Forall₂ (Renamed R) ps qs)
    (htext : Quoted ps text.toList) (htext' : Quoted qs text'.toList) :
    SameStructure R (getPostfix text) (getPostfix text') := by
  rw [getPostfix_eq (htext.tokens rfl rfl), getPostfix_eq (htext'.tokens rfl rfl)]
  have hstart : Yard.Like R {} {} := ⟨.nil, rfl, rfl, rfl⟩
  have hfold := @Both.foldlM R text text' ps qs hR hps {} {} hstart
  cases hy : (ps.map Piece.content).foldlM (Yard.read text) {} with
  | error e =>
    rw [hy] at hfold
    cases hz : (qs.map Piece.content).foldlM (Yard.read text') {} with
    | error e' => trivial
    | ok z =>
      rw [hz] at hfold
      exact hfold.elim
  | ok y =>
    rw [hy] at hfold
    cases hz : (qs.map Piece.content).foldlM (Yard.read text') {} with
    | error e' =>
      rw [hz] at hfold
      exact hfold.elim
    | ok z =>
      rw [hz] at hfold
      have hunwind := @sameStructure_unwind R text text' y.stack y.output z.output hfold.output
      rw [show y.stack = z.stack from hfold.stack] at hunwind
      show SameStructure R (unwind text y.output y.stack) (unwind text' z.output z.stack)
      rw [show y.stack = z.stack from hfold.stack]
      exact hunwind

end Rename

/-! ## Punctuation -/

/-- No comma and no parenthesis. -/
def Bare (x : String) : Prop := x ≠ "," ∧ x ≠ "(" ∧ x ≠ ")"

/-- Commas and parentheses do not get to the output. -/
structure Yard.Clean (y : Yard) : Prop where
  output : ∀ x ∈ y.output, Bare x
  stack : ∀ x ∈ y.stack, x ≠ "(" → Bare x

theorem bare_toString (n : ℕ) : Bare (toString n) := by
  refine ⟨?_, ?_, ?_⟩ <;> intro heq
  · have hdigit := isDigit_toString n ',' (by rw [heq]; decide)
    cases hdigit
  · have hdigit := isDigit_toString n '(' (by rw [heq]; decide)
    cases hdigit
  · have hdigit := isDigit_toString n ')' (by rw [heq]; decide)
    cases hdigit

theorem bare_of_function {f : String} (h : is_function f = true) : Bare f := by
  obtain ⟨-, hcomma, hleft, hright⟩ := func_facts ⟨f, h⟩
  exact ⟨hcomma, hleft, hright⟩

theorem bare_of_operator {token : String} (h : is_operator token = true) : Bare token := by
  refine ⟨?_, ?_, ?_⟩ <;> rintro rfl <;> simp [is_operator] at h

theorem Yard.Clean.popWhile {y : Yard} (h : y.Clean) {p : String → Bool}
    (hp : ∀ x, p x = true → x ≠ "(") : (y.popWhile p).Clean := by
  refine ⟨?_, ?_⟩
  · intro x hx
    rcases List.mem_append.mp hx with hx | hx
    · exact h.output x hx
    · exact h.stack x ((List.takeWhile_prefix p).subset hx) (hp x (List.mem_takeWhile_imp hx))
  · intro x hx
    exact h.stack x ((List.dropWhile_suffix p).subset hx)

theorem Yard.Clean.popFunction {y : Yard} (h : y.Clean) : y.popFunction.Clean := by
  unfold Yard.popFunction
  split
  · exact h
  · rename_i f stack heq
    split
    · rename_i hf
      refine ⟨?_, ?_⟩
      · intro x hx
        simp only [List.mem_append, List.mem_cons, List.not_mem_nil, or_false] at hx
        rcases hx with hx | rfl | rfl
        · exact h.output x hx
        · exact bare_of_function hf
        · exact bare_toString _
      · intro x hx
        exact h.stack x (by rw [heq]; exact List.mem_cons_of_mem f hx)
    · exact h

theorem Yard.Clean.push {y : Yard} (h : y.Clean) {token : String} (ht : token ≠ "(" → Bare token)
    (arity : List ℕ) (b : Bool) :
    ({ y with stack := token :: y.stack, arity := arity, canBeUnary := b } : Yard).Clean := by
  refine ⟨h.output, ?_⟩
  intro x hx
  rcases List.mem_cons.mp hx with rfl | hx
  · exact ht
  · exact h.stack x hx

variable {exp : String}

theorem Yard.Clean.read {token : String} {y y' : Yard} (h : y.Clean)
    (hread : y.read exp token = .ok y') : y'.Clean := by
  have hpop := @Yard.Clean.popWhile y h (fun top => top ≠ "(") fun x hx => of_decide_eq_true hx
  unfold Yard.read at hread
  split at hread
  · rename_i hf
    cases hread
    exact h.push (fun _ => bare_of_function hf) _ _
  · split at hread
    · dsimp only at hread
      split at hread
      · cases hread
      · split at hread
        · cases hread
        · cases hread
          exact ⟨hpop.output, hpop.stack⟩
    · rename_i hcomma
      split at hread
      · -- an operator
        rename_i hop
        split at hread
        · cases hread
          exact h.push (fun _ => ⟨by decide, by decide, by decide⟩) _ _
        · split at hread
          · cases hread
            exact h.push (fun _ => ⟨by decide, by decide, by decide⟩) _ _
          · cases hread
            refine Yard.Clean.push (Yard.Clean.popWhile h ?_) (fun _ => bare_of_operator hop) _ _
            intro x hx heq
            rw [heq] at hx
            cases hx
      · split at hread
        · rename_i hleft
          cases hread
          exact h.push (fun hne => absurd hleft hne) _ _
        · rename_i hleft
          split at hread
          · -- a right parenthesis
            dsimp only at hread
            split at hread
            · cases hread
            · rename_i top stack heq
              cases hread
              have hrest : ({ (y.popWhile fun top => top ≠ "(") with stack := stack } : Yard).Clean := by
                refine ⟨hpop.output, ?_⟩
                intro x hx
                exact hpop.stack x (by rw [heq]; exact List.mem_cons_of_mem top hx)
              have hfunction := hrest.popFunction
              exact ⟨hfunction.output, hfunction.stack⟩
          · rename_i hright
            cases hread
            refine ⟨?_, h.stack⟩
            intro x hx
            rcases List.mem_append.mp hx with hx | hx
            · exact h.output x hx
            · rw [List.mem_singleton.mp hx]
              exact ⟨hcomma, hleft, hright⟩

theorem Yard.Clean.foldlM {ts : List String} {y y' : Yard} (h : y.Clean)
    (hfold : ts.foldlM (Yard.read exp) y = .ok y') : y'.Clean := by
  induction ts generalizing y with
  | nil =>
    cases hfold
    exact h
  | cons token ts ih =>
    rw [List.foldlM_cons] at hfold
    cases hread : y.read exp token with
    | error e =>
      rw [hread] at hfold
      cases hfold
    | ok z =>
      rw [hread] at hfold
      exact ih (h.read hread) hfold

theorem bare_of_unwind {stack output result : List String}
    (hunwind : unwind exp output stack = .ok result) (houtput : ∀ x ∈ output, Bare x)
    (hstack : ∀ x ∈ stack, x ≠ "(" → Bare x) : ∀ x ∈ result, Bare x := by
  induction stack generalizing output with
  | nil =>
    cases hunwind
    exact houtput
  | cons top stack ih =>
    rw [unwind] at hunwind
    split at hunwind
    · cases hunwind
    · rename_i htop
      refine ih hunwind ?_ fun x hx => hstack x (List.mem_cons_of_mem top hx)
      intro x hx
      rcases List.mem_append.mp hx with hx | hx
      · exact houtput x hx
      · rw [List.mem_singleton.mp hx]
        exact hstack top List.mem_cons_self htop

/-- A postfix form has no punctuation. -/
theorem bare_of_getPostfix {text : String} {ts result : List String}
    (hts : tokens (.new text) = .ok ts) (h : getPostfix text = .ok result) : ∀ x ∈ result, Bare x := by
  rw [getPostfix_eq hts] at h
  cases hfold : ts.foldlM (Yard.read text) {} with
  | error e =>
    rw [hfold] at h
    cases h
  | ok y =>
    rw [hfold] at h
    have hstart : Yard.Clean {} := ⟨by simp, by simp⟩
    have hclean := hstart.foldlM hfold
    exact bare_of_unwind h hclean.output hclean.stack

/-! ## The call for the status of a service -/

/-- `SERVICESTATUS` and two names between quotes. -/
def callPieces (h s : String) : List Piece :=
  [.token "SERVICESTATUS", .token "(", .name h, .token ",", .name s, .token ")"]

/-- The call is the one of these two operands, and it becomes the service that they name. -/
def YieldsCall (h s : String) : Prop :=
  ∀ text : String, Quoted (callPieces h s) text.toList →
    getPostfix text = .ok [h, s, "SERVICESTATUS", "2"] ∧
    ∀ env : Env, env.strtol "2" = 2 → (env.get_service_id h s).1 ≠ 0 → (env.get_service_id h s).2 ≠ 0 →
      build env [h, s, "SERVICESTATUS", "2"] = .ok
        (.service (env.get_service_id h s).1 (env.get_service_id h s).2 ⟨0, 0, false, false⟩)

/-- One of the texts. -/
def callText (h s : String) : String :=
  String.ofList ("SERVICESTATUS".toList ++ ('(' :: (quotedName h ++ (',' :: (quotedName s ++ [')'])))))

theorem Quoted.glued {cs : List Char} (htoken : Token text w cs)
    (h : Quoted ps text) : Quoted (.token w :: ps) (cs ++ text) := by
  have hws : ∀ c ∈ ([] : List Char), isspace c = true := by simp
  exact Quoted.token hws htoken h

theorem Quoted.glued_name {d : Char} (hne : w ≠ "")
    (hd : isDelimiter d = true) (h : Quoted ps (d :: text)) :
    Quoted (.name w :: ps) (quotedName w ++ d :: text) := by
  have hws : ∀ c ∈ ([] : List Char), isspace c = true := by simp
  refine Quoted.name hws hne ?_ h
  intro c hc
  obtain rfl := Option.some.inj hc
  exact hd

/-- Parentheses end anywhere. -/
theorem token_paren {c : Char} (text : List Char) (hw : w = "(" ∨ w = ")")
    (hc : w.toList = [c]) : Token text w [c] := by
  have hmem : w ∈ symbols ∧ w ∉ ["!", "<", ">"] := by
    rcases hw with rfl | rfl <;> exact ⟨by decide, by decide⟩
  rw [← hc]
  refine .symbol hmem.1 ?_
  rw [Ends, if_pos hmem.1]
  intro h
  exact absurd h hmem.2

theorem token_function (text : List Char) :
    Token ('(' :: text) "SERVICESTATUS" "SERVICESTATUS".toList :=
  token_word (by decide) (by simp [isDelimiter, ExpTokenizer.isSpecialChar, isspace]) rfl

theorem toList_callText (h s : String) : (callText h s).toList =
    "SERVICESTATUS".toList ++ ('(' :: (quotedName h ++ (',' :: (quotedName s ++ [')'])))) := by
  unfold callText
  exact String.toList_ofList

variable {s h : String}

theorem quoted_callText (hh : h ≠ "") (hs : s ≠ "") :
    Quoted (callPieces h s) (callText h s).toList := by
  rw [toList_callText]
  have hend : Quoted [.token ")"] ([')'] ++ []) :=
    .glued (token_paren [] (.inr rfl) (by decide)) (.nil (by simp))
  have hservice : Quoted [.token ",", .name s, .token ")"] ([','] ++ (quotedName s ++ [')'])) :=
    .glued .comma (.glued_name hs rfl hend)
  have hhost : Quoted [.token "(", .name h, .token ",", .name s, .token ")"]
      (['('] ++ (quotedName h ++ (',' :: (quotedName s ++ [')'])))) :=
    .glued (token_paren _ (.inl rfl) (by decide)) (.glued_name hh rfl hservice)
  exact Quoted.glued (token_function _) hhost

theorem yieldsCall_of_word (hh : Word h) (hs : Word s) : YieldsCall h s := by
  intro text htext
  refine ⟨?_, ?_⟩
  · have hargs : Prints .arguments [.word h, .word s] ([h] ++ "," :: [s]) :=
      .argument .word (List.cons_ne_nil _ _) (.last_argument .word)
    have hcall : Prints (.operand 0) [.call ⟨"SERVICESTATUS", rfl⟩ [.word h, .word s]]
        ("SERVICESTATUS" :: "(" :: ([h] ++ "," :: [s]) ++ [")"]) := .call hargs
    have hchain : ("SERVICESTATUS" :: "(" :: ([h] ++ "," :: [s]) ++ [")"]).IsChain NoUnary := by
      have hminus : s ≠ "-" ∧ s ≠ "NOT" := by
        constructor <;> rintro rfl <;> exact absurd hs.not_operator (by decide)
      simp only [List.cons_append, List.nil_append, List.isChain_cons_cons, List.isChain_singleton]
      refine ⟨?_, ?_, fun heq => absurd heq hh.not_comma, fun _ => hminus,
        fun heq => absurd heq hs.not_comma, trivial⟩
      · intro heq
        exact absurd heq (by decide)
      · intro heq
        exact absurd heq (by decide)
    rw [getPostfix_eq (htext.tokens rfl rfl)]
    have hrender : (CallExpr.call ⟨"SERVICESTATUS", rfl⟩ [.word h, .word s]).render (max 1) =
        [h, s, "SERVICESTATUS", "2"] := by
      simp only [CallExpr.render, renderAll, List.append_nil, List.cons_append, List.nil_append,
        List.length_cons, List.length_nil]
      rfl
    rw [← hrender]
    exact hcall.parse ⟨hh, hs, trivial⟩ hchain text
  · intro env hstrtol hhost hservice
    rw [build, loop_service hstrtol hh hs ⟨hhost, hservice⟩]
    rfl

/-! ## What is built of other names -/

/-- Every name is the one of a service. -/
def anyService : Env where
  strtod _ := none
  strtol token := if token = "2" then 2 else 0
  get_service_id _ _ := (1, 1)

variable {env : Env}

theorem applyOperator_nil {token : String} (hminus : token ≠ "-u") :
    ∃ e, applyOperator env token [] = .error e := by
  rw [applyOperator, if_neg hminus]
  split
  · exact ⟨_, rfl⟩
  · cases binaryOf token with
    | none => exact ⟨_, rfl⟩
    | some op => exact ⟨_, rfl⟩

/-- A static function takes a name at least. -/
theorem applyFunction_nil (func : String) (arity : ℤ) :
    ∃ e, applyFunction env func arity [] = .error e := by
  have hcheck : ∀ (name : String) (n : ℤ),
      ∃ e, (checkArity name n arity >>= fun _ => popString [] >>= fun p => .ok p.2) = .error e := by
    intro name n
    rw [checkArity]
    split <;> exact ⟨_, rfl⟩
  unfold applyFunction
  repeat' split
  · exact hcheck _ _
  · exact hcheck _ _
  · exact hcheck _ _
  · exact hcheck _ _
  · exact hcheck _ _
  · exact ⟨_, rfl⟩

/-- No static function is called without a name. -/
theorem applyFunction_zero (func : String) (operands : List Operand) :
    ∃ e, applyFunction env func 0 operands = .error e := by
  unfold applyFunction
  repeat' split
  all_goals exact ⟨_, rfl⟩

/-- A call of `SERVICESTATUS` without two texts. -/
theorem loop_service_error {operands : List Operand}
    (h : ∀ s h' rest, operands ≠ .text s :: .text h' :: rest) :
    ∃ e, loop env ["SERVICESTATUS", "2"] operands = .error e := by
  have hloop : loop env ["SERVICESTATUS", "2"] operands =
      applyFunction env "SERVICESTATUS" (env.strtol "2") operands >>= fun operands => .ok operands := by
    rw [loop]
    simp only [show is_operator "SERVICESTATUS" = false by decide,
      show is_static_function "SERVICESTATUS" = true by decide, loop]
    rfl
  have happly : ∃ e, applyFunction env "SERVICESTATUS" (env.strtol "2") operands = .error e := by
    rw [applyFunction, if_neg (by decide), if_pos rfl, checkArity]
    split
    · exact ⟨_, rfl⟩
    · cases operands with
      | nil => exact ⟨_, rfl⟩
      | cons o operands =>
        cases o with
        | node n => exact ⟨_, rfl⟩
        | text s =>
          by_cases hs : s = ""
          · simp [popString, hs, bind, Except.bind]
          · cases operands with
            | nil => simp [popString, hs, bind, Except.bind]
            | cons o operands =>
              cases o with
              | node n => simp [popString, hs, bind, Except.bind]
              | text s' => exact absurd rfl (h s s' operands)
  obtain ⟨e, he⟩ := happly
  rw [hloop, he]
  exact ⟨e, rfl⟩

/-- What the builder makes of a token: the four cases of its loop. -/
theorem loop_cases (env : Env) (token next : String) (rest : List String) (operands : List Operand) :
    (is_operator token = true ∧ loop env (token :: next :: rest) operands =
      applyOperator env token operands >>= fun operands => loop env (next :: rest) operands) ∨
    (is_operator token = false ∧ is_function token = true ∧ is_static_function token = true ∧
      loop env (token :: next :: rest) operands =
        applyFunction env token (env.strtol next) operands >>= fun operands => loop env rest operands) ∨
    (is_operator token = false ∧ is_function token = true ∧ is_static_function token = false ∧
      loop env (token :: next :: rest) operands = loop env rest operands) ∨
    (is_operator token = false ∧ is_function token = false ∧
      loop env (token :: next :: rest) operands = loop env (next :: rest) (.text token :: operands)) := by
  rw [loop]
  cases hop : is_operator token with
  | true => exact .inl ⟨rfl, rfl⟩
  | false =>
    cases hf : is_function token with
    | true =>
      cases hstatic : is_static_function token with
      | true => exact .inr (.inl ⟨rfl, rfl, rfl, rfl⟩)
      | false => exact .inr (.inr (.inl ⟨rfl, rfl, rfl, rfl⟩))
    | false =>
      rw [not_static_of_not_function hf]
      exact .inr (.inr (.inr ⟨rfl, rfl, rfl⟩))

/-- Without a first name, there is no service. -/
theorem loop_second (s : String) {operands : List Operand}
    (h : loop env [s, "SERVICESTATUS", "2"] [] = .ok operands) : operands = [.text "2"] := by
  obtain ⟨e, he⟩ := @loop_service_error env [] (by simp)
  rcases loop_cases env s "SERVICESTATUS" ["2"] [] with
    ⟨hop, heq⟩ | ⟨-, -, -, heq⟩ | ⟨-, -, -, heq⟩ | ⟨-, -, heq⟩
  · rw [heq] at h
    by_cases hminus : s = "-u"
    · rw [hminus] at h
      have hloop : loop env ["SERVICESTATUS", "2"] [] = .ok operands := h
      rw [he] at hloop
      cases hloop
    · obtain ⟨e', he'⟩ := @applyOperator_nil env s hminus
      rw [he'] at h
      cases h
  · obtain ⟨e', he'⟩ := @applyFunction_nil env s (env.strtol "SERVICESTATUS")
    rw [heq, he'] at h
    cases h
  · rw [heq] at h
    exact (Except.ok.inj h).symm
  · obtain ⟨e', he'⟩ := @loop_service_error env [.text s] (by simp)
    rw [heq, he'] at h
    cases h

/-- After a first name, the second one is an operand, or there is no service. -/
theorem loop_second_text {operands : List Operand}
    (hloop : loop anyService [s, "SERVICESTATUS", "2"] [.text h] = .ok operands) :
    is_operator s = false ∧ is_function s = false ∨ operands = [.text "2", .text h] := by
  rcases loop_cases anyService s "SERVICESTATUS" ["2"] [.text h] with
    ⟨hop, heq⟩ | ⟨-, -, -, heq⟩ | ⟨-, -, -, heq⟩ | ⟨hop, hf, -⟩
  · -- an operator leaves one operand at most
    have hleft : ∀ operands, applyOperator anyService s [.text h] = .ok operands →
        ∀ x y rest, operands ≠ .text x :: .text y :: rest := by
      intro operands happly x y rest hoperands
      unfold applyOperator at happly
      split at happly
      · cases happly
        cases hoperands
      · split at happly
        · cases happly
          cases hoperands
        · split at happly <;> cases happly
    rw [heq] at hloop
    cases happly : applyOperator anyService s [.text h] with
    | error e =>
      rw [happly] at hloop
      cases hloop
    | ok operands' =>
      rw [happly] at hloop
      obtain ⟨e, he⟩ := @loop_service_error anyService operands' (hleft operands' happly)
      have hloop' : loop anyService ["SERVICESTATUS", "2"] operands' = .ok operands := hloop
      rw [he] at hloop'
      cases hloop'
  · obtain ⟨e, he⟩ := @applyFunction_zero anyService s [.text h]
    have hzero : anyService.strtol "SERVICESTATUS" = 0 := by decide
    rw [heq, hzero, he] at hloop
    cases hloop
  · rw [heq] at hloop
    exact .inr (Except.ok.inj hloop).symm
  · exact .inl ⟨hop, hf⟩

/-- Names that become a service are operands. -/
theorem operands_of_build {host_id service_id : ℕ} {st : ServiceState}
    (hbuild : build anyService [h, s, "SERVICESTATUS", "2"] = .ok (.service host_id service_id st)) :
    (is_operator h = false ∧ is_function h = false) ∧ is_operator s = false ∧ is_function s = false := by
  have hnil : ∀ operands, loop anyService [h, s, "SERVICESTATUS", "2"] [] = .ok operands →
      operands ≠ [.text "2"] ∧ operands ≠ [.text "2", .text h] := by
    intro operands hloop
    rw [build, hloop] at hbuild
    constructor <;> rintro rfl <;> cases hbuild
  cases hloop : loop anyService [h, s, "SERVICESTATUS", "2"] [] with
  | error e =>
    rw [build, hloop] at hbuild
    cases hbuild
  | ok operands =>
    obtain ⟨hone, htwo⟩ := hnil operands hloop
    rcases loop_cases anyService h s ["SERVICESTATUS", "2"] [] with
      ⟨hop, heq⟩ | ⟨-, -, -, heq⟩ | ⟨-, -, -, heq⟩ | ⟨hop, hf, heq⟩
    · rw [heq] at hloop
      by_cases hminus : h = "-u"
      · rw [hminus] at hloop
        exact absurd (loop_second s hloop) hone
      · obtain ⟨e, he⟩ := @applyOperator_nil anyService h hminus
        rw [he] at hloop
        cases hloop
    · obtain ⟨e, he⟩ := @applyFunction_nil anyService h (anyService.strtol s)
      rw [heq, he] at hloop
      cases hloop
    · obtain ⟨e, he⟩ := @loop_service_error anyService [] (by simp)
      rw [heq, he] at hloop
      cases hloop
    · rw [heq] at hloop
      rcases loop_second_text hloop with hs | hs
      · exact ⟨⟨hop, hf⟩, hs⟩
      · exact absurd hs htwo

theorem rest_new (text : String) : (ExpTokenizer.new text).rest = text.toList := rfl

theorem word_of_yieldsCall (hh : h ≠ "") (hs : s ≠ "") (hcall : YieldsCall h s) :
    Word h ∧ Word s := by
  have htext := quoted_callText hh hs
  obtain ⟨hbehind, hbuild⟩ := hcall (callText h s) htext
  have htokens : tokens (.new (callText h s)) = .ok ((callPieces h s).map Piece.content) :=
    htext.tokens rfl (rest_new _)
  have hbare := bare_of_getPostfix htokens hbehind
  have hservice := hbuild anyService (by decide) Nat.one_ne_zero Nat.one_ne_zero
  obtain ⟨⟨hop, hf⟩, hop', hf'⟩ := operands_of_build hservice
  obtain ⟨hcomma, hleft, hright⟩ := hbare h (by simp)
  obtain ⟨hcomma', hleft', hright'⟩ := hbare s (by simp)
  exact ⟨⟨hh, hcomma, hleft, hright, hop, hf⟩, ⟨hs, hcomma', hleft', hright', hop', hf'⟩⟩

/--
**Quoted operands.** `SERVICESTATUS` with two names between quotes is the call of these two names
exactly where neither is an operator, a function, a comma or a parenthesis; and expressions that
differ only in quoted names of this kind have the same structure.
-/
theorem quoted_names_iff (h s : String) :
    (h ≠ "" → s ≠ "" → (YieldsCall h s ↔ Word h ∧ Word s)) ∧
    ∀ (R : String → String → Prop) (ps qs : List Piece) (text text' : String),
      (∀ v w, R v w → Word v ∧ Word w) → List.Forall₂ (Renamed R) ps qs →
      Quoted ps text.toList → Quoted qs text'.toList →
      SameStructure R (getPostfix text) (getPostfix text') := by
  refine ⟨?_, ?_⟩
  · intro hh hs
    exact ⟨word_of_yieldsCall hh hs, fun ⟨hword, hword'⟩ => yieldsCall_of_word hword hword'⟩
  · intro R ps qs text text' hR hps htext htext'
    exact sameStructure_getPostfix hR hps htext htext'

/-- Two letters, one of them in the place of the other. -/
theorem quoted_names_iff_letters : YieldsCall "a" "b" ∧
    SameStructure (fun v w => v = "a" ∧ w = "b") (getPostfix (callText "a" "b"))
      (getPostfix (callText "b" "b")) := by
  have hletter : ∀ w ∈ ["a", "b"], Word w := word_letter
  have ha := hletter "a" (by decide)
  have hb := hletter "b" (by decide)
  refine ⟨((quoted_names_iff "a" "b").1 (by decide) (by decide)).mpr ⟨ha, hb⟩, ?_⟩
  refine (quoted_names_iff "a" "b").2 _ (callPieces "a" "b") (callPieces "b" "b") _ _ ?_ ?_
    (quoted_callText (by decide) (by decide)) (quoted_callText (by decide) (by decide))
  · rintro v w ⟨rfl, rfl⟩
    exact ⟨ha, hb⟩
  · exact .cons (.same _) (.cons (.same _) (.cons (.name ⟨rfl, rfl⟩)
      (.cons (.same _) (.cons (.same _) (.cons (.same _) .nil)))))

/-- A host whose name is an operator. -/
theorem not_quoted_names : ¬ ∀ h s : String, h ≠ "" → s ≠ "" → YieldsCall h s := by
  intro hall
  have hcall := hall "AND" "b" (by decide) (by decide)
  have hword := (word_of_yieldsCall (by decide) (by decide) hcall).1
  have hoperator : is_operator "AND" = true := by decide
  rw [hword.not_operator] at hoperator
  cases hoperator

end CentreonBroker.Bam.ExpParser
