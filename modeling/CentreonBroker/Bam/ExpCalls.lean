import CentreonBroker.Bam.ExpGrammar

/-!
# Function calls in expressions

Expressions with calls, and the ways to write them. The parser counts the arguments of a call on a
stack of its own: one when it reads the function, and one more for each comma.

After a comma the parser takes no operator for a unary one. So a minus or a `NOT` that an argument
starts with, but for the first argument, becomes a binary operator; `!` is the same on both ways.
-/

namespace CentreonBroker.Bam.ExpParser

open ExpBuilder (is_operator is_function)

/-! ## Expressions -/

/-- A function that the parser knows. -/
structure Func where
  name : String
  known : is_function name = true

inductive CallExpr where
  | word (w : String)
  | unary (u : Unary) (e : CallExpr)
  | binary (b : Binary) (l r : CallExpr)
  | call (f : Func) (args : List CallExpr)

namespace CallExpr

mutual

/-- The postorder of an expression, where a call has some number for its arguments. -/
def render (arity : ℕ → ℕ) : CallExpr → List String
  | word w => [w]
  | unary u e => e.render arity ++ [u.rendered]
  | binary b l r => l.render arity ++ r.render arity ++ [b.token]
  | call f args => renderAll arity args ++ [f.name, toString (arity args.length)]

def renderAll (arity : ℕ → ℕ) : List CallExpr → List String
  | [] => []
  | e :: es => e.render arity ++ renderAll arity es

end

/-- The postfix form of an expression. -/
def postorder (e : CallExpr) : List String := e.render id

mutual

/-- All the operands satisfy `P`. -/
def Over (P : String → Prop) : CallExpr → Prop
  | word w => P w
  | unary _ e => e.Over P
  | binary _ l r => l.Over P ∧ r.Over P
  | call _ args => OverAll P args

def OverAll (P : String → Prop) : List CallExpr → Prop
  | [] => True
  | e :: es => e.Over P ∧ OverAll P es

end

mutual

/-- Every call has an argument. -/
def Applied : CallExpr → Prop
  | word _ => True
  | unary _ e => e.Applied
  | binary _ l r => l.Applied ∧ r.Applied
  | call _ args => args ≠ [] ∧ AppliedAll args

def AppliedAll : List CallExpr → Prop
  | [] => True
  | e :: es => e.Applied ∧ AppliedAll es

end

mutual

/-- The number of unary operators. -/
def unaries : CallExpr → ℕ
  | word _ => 0
  | unary _ e => e.unaries + 1
  | binary _ l r => l.unaries + r.unaries
  | call _ args => unariesAll args

def unariesAll : List CallExpr → ℕ
  | [] => 0
  | e :: es => e.unaries + unariesAll es

end

theorem renderAll_eq_flatMap (arity : ℕ → ℕ) (es : List CallExpr) :
    renderAll arity es = es.flatMap (render arity) := by
  induction es with
  | nil => rfl
  | cons e es ih => rw [renderAll, ih, List.flatMap_cons]

mutual

theorem length_render (arity arity' : ℕ → ℕ) (e : CallExpr) :
    (e.render arity).length = (e.render arity').length := by
  match e with
  | word w => rfl
  | unary u e => simp [render, length_render arity arity' e]
  | binary b l r => simp [render, length_render arity arity' l, length_render arity arity' r]
  | call f args => simp [render, length_renderAll arity arity' args]

theorem length_renderAll (arity arity' : ℕ → ℕ) (es : List CallExpr) :
    (renderAll arity es).length = (renderAll arity' es).length := by
  match es with
  | [] => rfl
  | e :: es => simp [renderAll, length_render arity arity' e, length_renderAll arity arity' es]

end

mutual

/-- The parser counts one argument where there is none. -/
theorem render_eq_iff (e : CallExpr) : e.render (max 1) = e.postorder ↔ e.Applied := by
  match e with
  | word w => exact iff_of_true rfl trivial
  | unary u e =>
    show e.render (max 1) ++ _ = e.render id ++ _ ↔ e.Applied
    rw [List.append_left_inj]
    exact render_eq_iff e
  | binary b l r =>
    show l.render (max 1) ++ r.render (max 1) ++ _ = l.render id ++ r.render id ++ _ ↔
      l.Applied ∧ r.Applied
    rw [List.append_left_inj, List.append_eq_append_iff_of_size_eq_left (length_render _ _ l)]
    exact and_congr (render_eq_iff l) (render_eq_iff r)
  | call f args =>
    show renderAll (max 1) args ++ _ = renderAll id args ++ _ ↔ args ≠ [] ∧ AppliedAll args
    rw [List.append_eq_append_iff_of_size_eq_left (length_renderAll _ _ args), renderAll_eq_iff args]
    have harity : [f.name, toString (max 1 args.length)] = [f.name, toString (id args.length)] ↔
        args ≠ [] := by
      cases args with
      | nil =>
        refine iff_of_false ?_ (fun hne => hne rfl)
        intro heq
        have hdigit : toString 1 = toString 0 := (List.cons.inj (List.cons.inj heq).2).1
        revert hdigit
        decide
      | cons e es =>
        have hmax : max 1 (e :: es).length = (e :: es).length :=
          max_eq_right (by simp)
        rw [hmax]
        exact iff_of_true rfl (List.cons_ne_nil _ _)
    rw [harity]
    exact and_comm

theorem renderAll_eq_iff (es : List CallExpr) :
    renderAll (max 1) es = renderAll id es ↔ AppliedAll es := by
  match es with
  | [] => exact iff_of_true rfl trivial
  | e :: es =>
    show e.render (max 1) ++ _ = e.render id ++ _ ↔ e.Applied ∧ AppliedAll es
    rw [List.append_eq_append_iff_of_size_eq_left (length_render _ _ e)]
    exact and_congr (render_eq_iff e) (renderAll_eq_iff es)

end

end CallExpr

open CallExpr

/-! ## The ways to write them -/

/-- An operand token: no operator, no function and no punctuation. -/
structure Word (w : String) : Prop where
  ne_empty : w ≠ ""
  not_comma : w ≠ ","
  not_left : w ≠ "("
  not_right : w ≠ ")"
  not_operator : is_operator w = false
  not_function : is_function w = false

/-- What some tokens write: an operand of an operator that binds as much as `p`, or the arguments of
a call. -/
inductive Place where
  | operand (p : ℕ)
  | arguments

inductive Prints : Place → List CallExpr → List String → Prop
  | word {p w} : Prints (.operand p) [.word w] [w]
  | paren {p e ts} : Prints (.operand 0) [e] ts → Prints (.operand p) [e] ("(" :: ts ++ [")"])
  | unary {p u e ts} : p ≤ 6 → Prints (.operand 6) [e] ts →
      Prints (.operand p) [.unary u e] (u.token :: ts)
  | binary {p} {b : Binary} {l r ts us} : p ≤ precedence b.token →
      Prints (.operand (precedence b.token)) [l] ts →
      Prints (.operand (precedence b.token + 1)) [r] us →
      Prints (.operand p) [.binary b l r] (ts ++ b.token :: us)
  | call {p f args ts} : Prints .arguments args ts →
      Prints (.operand p) [.call f args] (f.name :: "(" :: ts ++ [")"])
  | no_argument : Prints .arguments [] []
  | last_argument {e ts} : Prints (.operand 0) [e] ts → Prints .arguments [e] ts
  | argument {e es ts us} : Prints (.operand 0) [e] ts → es ≠ [] → Prints .arguments es us →
      Prints .arguments (e :: es) (ts ++ "," :: us)

/-- Two tokens that may follow each other: after a comma, no operator but `!`. -/
def NoUnary (token next : String) : Prop := token = "," → next ≠ "-" ∧ next ≠ "NOT"

instance : DecidableRel NoUnary := fun token next =>
  inferInstanceAs (Decidable (token = "," → next ≠ "-" ∧ next ≠ "NOT"))

/-! ## Reading -/

section Read

variable {exp : String} {y : Yard}

theorem read_operand {w : String} (hw : Word w) :
    y.read exp w = .ok { y with output := y.output ++ [w], canBeUnary := false } := by
  simp [Yard.read, hw.not_function, hw.not_comma, hw.not_operator, hw.not_left, hw.not_right]

theorem func_facts (f : Func) : is_operator f.name = false ∧ f.name ≠ "," ∧ f.name ≠ "(" ∧
    f.name ≠ ")" := by
  have hname := f.known
  simp only [is_function, List.contains_eq_mem, List.mem_cons, List.not_mem_nil, or_false,
    decide_eq_true_eq] at hname
  rcases hname with h | h | h | h | h | h | h | h | h | h <;> rw [h] <;> decide

theorem read_function (f : Func) : y.read exp f.name =
    .ok { y with stack := f.name :: y.stack, arity := 1 :: y.arity, canBeUnary := false } := by
  simp [Yard.read, f.known]

variable {stack ops : List String}

theorem read_comma {n : ℕ} {arity : List ℕ}
    (hstack : y.stack = ops ++ "(" :: stack) (hops : ∀ op ∈ ops, op ≠ "(")
    (harity : y.arity = n :: arity) :
    y.read exp "," = .ok
      { y with
        output := y.output ++ ops, stack := "(" :: stack, arity := (n + 1) :: arity,
        canBeUnary := false } := by
  have hpop := popWhile_left hstack hops
  simp only [Yard.read, hpop, harity]
  simp [is_function]

/-- The right parenthesis of a call. -/
theorem read_call_end (f : Func) {n : ℕ} {arity : List ℕ}
    (hstack : y.stack = ops ++ "(" :: f.name :: stack) (hops : ∀ op ∈ ops, op ≠ "(")
    (harity : y.arity = n :: arity) :
    y.read exp ")" = .ok
      { y with
        output := y.output ++ ops ++ [f.name, toString n], stack := stack, arity := arity,
        canBeUnary := false } := by
  have hpop := popWhile_left hstack hops
  simp only [Yard.read, hpop]
  simp [is_function, is_operator, Yard.popFunction, harity]
  have hname := f.known
  simp only [is_function, List.contains_eq_mem, List.mem_cons, List.not_mem_nil, or_false,
    decide_eq_true_eq] at hname
  simp [hname]

/-- Right after a comma `!` is read as a binary operator, which is the same. -/
theorem read_bang (hu : y.canBeUnary = false) (htop : y.stack.head? = some "(") :
    y.read exp "!" = .ok { y with stack := "!" :: y.stack, canBeUnary := true } := by
  obtain ⟨stack, hstack⟩ := List.head?_eq_some_iff.mp htop
  simp [Yard.read, Yard.popWhile, is_function, is_operator, hu, hstack]

end Read

/-- An expression may start here: a unary operator is taken for one, or there is none but `!`. -/
def Start (y : Yard) (ts : List String) : Prop :=
  y.canBeUnary = true ∨ y.stack.head? = some "(" ∧ ∀ t ∈ ts.head?, t ≠ "-" ∧ t ≠ "NOT"

variable {ts : List String}

theorem Start.append {y : Yard} {us : List String} (h : Start y (ts ++ us)) (hne : ts ≠ []) :
    Start y ts := by
  rcases h with h | ⟨htop, h⟩
  · exact .inl h
  · refine .inr ⟨htop, ?_⟩
    rwa [List.head?_append_of_ne_nil _ hne] at h

variable {es : List CallExpr}

theorem Prints.ne_nil {p : ℕ}
    (h : Prints (.operand p) es ts) : ts ≠ [] := by
  generalize hplace : Place.operand p = place at h
  cases h with
  | word => exact List.cons_ne_nil _ _
  | paren => exact List.cons_ne_nil _ _
  | unary => exact List.cons_ne_nil _ _
  | binary => exact List.append_ne_nil_of_right_ne_nil _ (List.cons_ne_nil _ _)
  | call => exact List.cons_ne_nil _ _
  | no_argument => cases hplace
  | last_argument => cases hplace
  | argument => cases hplace

/-- What reading the tokens of an operand, or of some arguments, does to the output and the stack. -/
def Reads (exp : String) : Place → List CallExpr → List String → Prop
  | .operand p, es, ts => ∀ y : Yard, Start y ts → Ready p y.stack →
    ∃ out ops, out ++ ops = renderAll (max 1) es ∧
      (∀ op ∈ ops, is_operator op = true ∧ p ≤ precedence op) ∧
      ts.foldlM (Yard.read exp) y = .ok
        { y with output := y.output ++ out, stack := ops ++ y.stack, canBeUnary := false }
  | .arguments, es, ts => ∀ (y : Yard) (stack : List String) (n : ℕ) (arity : List ℕ), Start y ts →
    y.stack = "(" :: stack → y.arity = n :: arity →
    ∃ out ops b, out ++ ops = renderAll (max 1) es ∧ (∀ op ∈ ops, op ≠ "(") ∧
      ts.foldlM (Yard.read exp) y = .ok
        { output := y.output ++ out, stack := ops ++ "(" :: stack,
          arity := (n + (es.length - 1)) :: arity, canBeUnary := b }

theorem ne_left_of_operator {ops : List String} {p : ℕ}
    (hops : ∀ op ∈ ops, is_operator op = true ∧ p ≤ precedence op) : ∀ op ∈ ops, op ≠ "(" := by
  rintro op hop rfl
  have hparen := (hops "(" hop).1
  simp [is_operator] at hparen

theorem ready_left (p : ℕ) (stack : List String) : Ready p ("(" :: stack) := by
  intro top htop
  cases htop
  exact ⟨by decide, fun h => by cases h⟩

/-- **The parser reads what is written**, where no minus and no `NOT` follows a comma. -/
theorem Prints.read (exp : String) {place : Place}
    (h : Prints place es ts) (hw : OverAll Word es) (hchain : ts.IsChain NoUnary) :
    Reads exp place es ts := by
  induction h with
  | word =>
    rename_i p w
    intro y _ _
    refine ⟨[w], [], rfl, by simp, ?_⟩
    rw [List.foldlM_cons, read_operand hw.1]
    rfl
  | paren _ ih =>
    rename_i p e ts hprints
    intro y _ hs
    rw [List.cons_append] at hchain
    have hinner : ts.IsChain NoUnary := (List.isChain_append.mp (List.isChain_cons.mp hchain).2).1
    obtain ⟨out, ops, hpost, hops, hfold⟩ := ih hw hinner
      { y with stack := "(" :: y.stack, canBeUnary := true } (.inl rfl) (ready_left 0 _)
    refine ⟨renderAll (max 1) [e], [], List.append_nil _, by simp, ?_⟩
    rw [List.cons_append, List.foldlM_cons, read_left]
    show List.foldlM (Yard.read exp) _ (ts ++ [")"]) = _
    rw [List.foldlM_append, hfold]
    show List.foldlM (Yard.read exp) _ [")"] = _
    rw [List.foldlM_cons, read_right rfl (ne_left_of_operator hops) fun top htop => (hs top htop).1,
      ← hpost]
    simp only [← List.append_assoc]
    rfl
  | unary hp _ ih =>
    rename_i p u e ts _
    intro y hu hs
    have hread : y.read exp u.token = .ok { y with stack := u.rendered :: y.stack, canBeUnary := true } := by
      cases hflag : y.canBeUnary with
      | true => exact read_unary u hflag
      | false =>
        rcases hu with hu | ⟨htop, hu⟩
        · rw [hflag] at hu
          cases hu
        · have hfirst := hu u.token rfl
          cases u with
          | minus => exact absurd rfl hfirst.1
          | bang => exact read_bang hflag htop
          | not => exact absurd rfl hfirst.2
    have hready : Ready 6 (u.rendered :: y.stack) := by
      intro top htop
      cases htop
      exact ⟨by cases u <;> decide, fun _ => .inr (by decide)⟩
    obtain ⟨out, ops, hpost, hops, hfold⟩ := ih hw (List.isChain_cons.mp hchain).2
      { y with stack := u.rendered :: y.stack, canBeUnary := true } (.inl rfl) hready
    refine ⟨out, ops ++ [u.rendered], ?_, ?_, ?_⟩
    · rw [← List.append_assoc, hpost]
      simp [renderAll, CallExpr.render]
    · intro op hop
      rcases List.mem_append.mp hop with hop | hop
      · exact ⟨(hops op hop).1, le_trans hp (hops op hop).2⟩
      · rw [List.mem_singleton.mp hop]
        exact ⟨by cases u <;> decide, le_trans hp (by cases u <;> decide)⟩
    · rw [List.foldlM_cons, hread]
      show List.foldlM (Yard.read exp) _ ts = _
      rw [hfold]
      simp only [List.append_assoc]
      rfl
  | binary hp hl _ ihl ihr =>
    rename_i p b l r ts us _
    intro y hu hs
    obtain ⟨hchainl, hchainr, -⟩ := List.isChain_append.mp hchain
    obtain ⟨out₁, ops₁, hpost₁, hops₁, hfold₁⟩ := ihl ⟨hw.1.1, trivial⟩ hchainl y (hu.append hl.ne_nil)
      (hs.mono hp)
    have hle : precedence b.token ≤ 5 := (binary_facts b.token b.mem).2.2.2.2.2.2
    have hop : is_operator b.token = true := (binary_facts b.token b.mem).1
    have hready : Ready (precedence b.token + 1) (b.token :: y.stack) := by
      intro top htop
      cases htop
      exact ⟨(binary_facts b.token b.mem).2.1, fun _ => .inl (Nat.lt_succ_self _)⟩
    obtain ⟨out₂, ops₂, hpost₂, hops₂, hfold₂⟩ := ihr ⟨hw.1.2, trivial⟩ (List.isChain_cons.mp hchainr).2
      { y with
        output := y.output ++ out₁ ++ ops₁, stack := b.token :: y.stack, canBeUnary := true }
      (.inl rfl) hready
    simp only [renderAll, List.append_nil] at hpost₁ hpost₂
    refine ⟨l.render (max 1) ++ out₂, ops₂ ++ [b.token], ?_, ?_, ?_⟩
    · simp only [renderAll, CallExpr.render, ← hpost₂, List.append_assoc, List.append_nil]
    · intro op hmem
      rcases List.mem_append.mp hmem with hmem | hmem
      · have hge := (hops₂ op hmem).2
        exact ⟨(hops₂ op hmem).1, by omega⟩
      · rw [List.mem_singleton.mp hmem]
        exact ⟨hop, hp⟩
    · rw [List.foldlM_append, hfold₁]
      show List.foldlM (Yard.read exp) _ (b.token :: us) = _
      rw [List.foldlM_cons, read_binary b rfl rfl hops₁ (hs.mono hp)]
      show List.foldlM (Yard.read exp) _ us = _
      rw [hfold₂, ← hpost₁]
      simp only [List.append_assoc]
      rfl
  | call _ ih =>
    rename_i p f args ts _
    intro y _ _
    rw [List.cons_append, List.cons_append] at hchain
    have hinner : ts.IsChain NoUnary :=
      (List.isChain_append.mp (List.isChain_cons.mp (List.isChain_cons.mp hchain).2).2).1
    obtain ⟨out, ops, b, hpost, hops, hfold⟩ := ih hw.1 hinner
      { output := y.output, stack := "(" :: f.name :: y.stack, arity := 1 :: y.arity, canBeUnary := true }
      (f.name :: y.stack) 1 y.arity (.inl rfl) rfl rfl
    have hmax : 1 + (args.length - 1) = max 1 args.length := by omega
    refine ⟨renderAll (max 1) [.call f args], [], List.append_nil _, by simp, ?_⟩
    rw [List.cons_append, List.foldlM_cons, read_function]
    show List.foldlM (Yard.read exp) _ ("(" :: ts ++ [")"]) = _
    rw [List.cons_append, List.foldlM_cons, read_left]
    show List.foldlM (Yard.read exp) _ (ts ++ [")"]) = _
    rw [List.foldlM_append, hfold]
    show List.foldlM (Yard.read exp) _ [")"] = _
    rw [List.foldlM_cons, read_call_end f rfl hops rfl, hmax]
    simp only [renderAll, CallExpr.render, ← hpost, List.append_assoc, List.append_nil]
    rfl
  | no_argument =>
    intro y stack n arity _ hstack harity
    refine ⟨[], [], y.canBeUnary, rfl, by simp, ?_⟩
    simp only [List.append_nil, List.nil_append, List.length_nil, Nat.zero_sub, Nat.add_zero,
      ← hstack, ← harity]
    rfl
  | last_argument _ ih =>
    rename_i e ts _
    intro y stack n arity hu hstack harity
    obtain ⟨out, ops, hpost, hops, hfold⟩ := ih hw hchain y hu (by rw [hstack]; exact ready_left 0 _)
    refine ⟨out, ops, false, hpost, ne_left_of_operator hops, ?_⟩
    rw [hfold, hstack, harity]
    rfl
  | argument he hne _ ihe ihs =>
    rename_i e es ts us hs
    intro y stack n arity hu hstack harity
    obtain ⟨hchaine, hchains, -⟩ := List.isChain_append.mp hchain
    obtain ⟨hcomma, hchains⟩ := List.isChain_cons.mp hchains
    obtain ⟨out₁, ops₁, hpost₁, hops₁, hfold₁⟩ := ihe ⟨hw.1, trivial⟩ hchaine y (hu.append he.ne_nil)
      (by rw [hstack]; exact ready_left 0 _)
    have hpos : 0 < es.length := List.length_pos_of_ne_nil hne
    obtain ⟨out₂, ops₂, b, hpost₂, hops₂, hfold₂⟩ := ihs hw.2 hchains
      { output := y.output ++ out₁ ++ ops₁, stack := "(" :: stack, arity := (n + 1) :: arity,
        canBeUnary := false } stack (n + 1) arity (.inr ⟨rfl, fun t ht => hcomma t ht rfl⟩) rfl rfl
    simp only [renderAll, List.append_nil] at hpost₁
    refine ⟨e.render (max 1) ++ out₂, ops₂, b, ?_, hops₂, ?_⟩
    · rw [List.append_assoc, hpost₂]
      rfl
    · rw [List.foldlM_append, hfold₁]
      show List.foldlM (Yard.read exp) _ ("," :: us) = _
      rw [List.foldlM_cons, hstack, harity, read_comma rfl (ne_left_of_operator hops₁) rfl]
      show List.foldlM (Yard.read exp) _ us = _
      rw [hfold₂, ← hpost₁]
      have hcount : n + 1 + (es.length - 1) = n + ((e :: es).length - 1) := by
        simp only [List.length_cons]
        omega
      rw [hcount]
      simp only [List.append_assoc]

/-- Without a unary operator after a comma, the parser gives the postorder but for empty calls. -/
theorem Prints.parse {e : CallExpr} (h : Prints (.operand 0) [e] ts)
    (hw : e.Over Word) (hchain : ts.IsChain NoUnary) (exp : String) :
    (ts.foldlM (Yard.read exp) {} >>= fun y => unwind exp y.output y.stack) =
      .ok (e.render (max 1)) := by
  obtain ⟨out, ops, hpost, hops, hfold⟩ :=
    h.read exp ⟨hw, trivial⟩ hchain {} (.inl rfl) (fun top htop => by cases htop)
  simp only [renderAll, List.append_nil] at hpost
  rw [hfold]
  show unwind exp ([] ++ out) (ops ++ []) = _
  rw [List.append_nil, unwind_ops exp (ne_left_of_operator hops), ← hpost]
  rfl

/-! ## Unary operators after a comma -/

/-- The items that only a unary operator leaves. -/
def isUnary (item : String) : Bool := item = "-u" ∨ item = "!"

/-- Whether the parser takes the token, after what it read before, for a unary operator. -/
def leaves (canBeUnary : Bool) (token : String) : Bool :=
  isUnary token ∨ canBeUnary ∧ (token = "-" ∨ token = "NOT")

/-- What an operator may be unary after: an operator or a left parenthesis, and perhaps a comma. -/
def admits (comma : Bool) (token : String) : Bool :=
  is_operator token ∨ token = "(" ∨ comma ∧ token = ","

/-- The number of unary operators among some tokens. -/
def countUnary (comma canBeUnary : Bool) : List String → ℕ
  | [] => 0
  | token :: ts => (leaves canBeUnary token).toNat + countUnary comma (admits comma token) ts

/-- The unary operators that are on the output or on the stack. -/
def Yard.unaries (y : Yard) : ℕ := (y.output ++ y.stack).countP isUnary

theorem Yard.unaries_popWhile (y : Yard) (p : String → Bool) : (y.popWhile p).unaries = y.unaries := by
  simp only [unaries, popWhile, List.append_assoc, List.takeWhile_append_dropWhile]

theorem isDigit_toString (n : ℕ) : ∀ c ∈ (toString n).toList, c.isDigit = true := by
  intro c hc
  have hc : c ∈ (Nat.repr n).toList := hc
  rw [Nat.repr_eq_ofList_toDigits, String.toList_ofList] at hc
  exact Nat.isDigit_of_mem_toDigits (by decide) (by decide) hc

theorem isUnary_toString (n : ℕ) : isUnary (toString n) = false := by
  refine decide_eq_false ?_
  rintro (heq | heq)
  · have hminus := isDigit_toString n '-' (by rw [heq]; decide)
    cases hminus
  · have hbang := isDigit_toString n '!' (by rw [heq]; decide)
    cases hbang

theorem isUnary_of_function {f : String} (h : is_function f = true) : isUnary f = false := by
  refine decide_eq_false ?_
  rintro (rfl | rfl) <;> simp [is_function] at h

theorem Yard.unaries_popFunction (y : Yard) : y.popFunction.unaries = y.unaries := by
  unfold popFunction
  split
  · rfl
  · rename_i f stack heq
    split
    · rename_i hf
      simp only [unaries, heq, List.countP_append, List.countP_cons, List.countP_nil,
        isUnary_of_function hf, isUnary_toString]
      simp
    · rfl

/-- One turn of the loop: what it adds, and what may come next. -/
theorem Yard.read_unaries {exp token : String} {y y' : Yard} (h : y.read exp token = .ok y') :
    y'.unaries = y.unaries + (leaves y.canBeUnary token).toNat ∧
      y'.canBeUnary = admits false token := by
  have hpush : ∀ (z : Yard) (item : String) (arity : List ℕ) (b : Bool),
      ({ z with stack := item :: z.stack, arity := arity, canBeUnary := b } : Yard).unaries =
        z.unaries + (isUnary item).toNat := by
    intro z item arity b
    simp only [unaries, List.countP_append, List.countP_cons]
    cases isUnary item <;> simp [Nat.add_assoc]
  have hplain : ∀ {s : String}, is_operator s = false → ∀ b, leaves b s = false := by
    intro s hs b
    refine decide_eq_false ?_
    rintro (hs' | ⟨-, rfl | rfl⟩)
    · rcases of_decide_eq_true hs' with rfl | rfl <;> simp [is_operator] at hs
    · simp [is_operator] at hs
    · simp [is_operator] at hs
  unfold read at h
  split at h
  · -- a function
    rename_i hf
    cases h
    have hop : is_operator token = false := (func_facts ⟨token, hf⟩).1
    have hleft : token ≠ "(" := (func_facts ⟨token, hf⟩).2.2.1
    rw [hpush, hplain hop, isUnary_of_function hf]
    exact ⟨rfl, by simp [admits, hop, hleft]⟩
  · split at h
    · -- a comma
      rename_i hcomma
      subst hcomma
      dsimp only at h
      split at h
      · cases h
      · split at h
        · cases h
        · cases h
          rw [hplain (by decide)]
          exact ⟨unaries_popWhile y fun top => decide (top ≠ "("), rfl⟩
    · split at h
      · -- an operator
        rename_i hop
        have hadmits : admits false token = true := decide_eq_true (.inl hop)
        split at h
        · rename_i hminus
          cases h
          rw [hpush, hadmits]
          simp [leaves, hminus.1, hminus.2, isUnary]
        · rename_i hminus
          split at h
          · rename_i hnot
            cases h
            rw [hpush, hadmits]
            rcases hnot with ⟨hu, rfl | rfl⟩ <;> simp [leaves, hu, isUnary]
          · rename_i hnot
            cases h
            rw [hpush, hadmits, unaries_popWhile]
            have hleaves : leaves y.canBeUnary token = isUnary token := by
              simp only [leaves]
              grind
            rw [hleaves]
            exact ⟨rfl, rfl⟩
      · rename_i hop
        have hop : is_operator token = false := by simpa using hop
        split at h
        · -- a left parenthesis
          rename_i hleft
          cases h
          rw [hpush, hleft]
          exact ⟨by rw [hplain (by decide)]; rfl, by simp [admits]⟩
        · rename_i hleft
          have hadmits : admits false token = false := by simp [admits, hop, hleft]
          rw [hplain hop, hadmits]
          split at h
          · -- a right parenthesis
            dsimp only at h
            split at h
            · cases h
            · rename_i top stack heq
              cases h
              refine ⟨?_, rfl⟩
              have htop : isUnary top = false := by
                have hhead := List.head?_dropWhile_not (fun top => decide (top ≠ "(")) y.stack
                simp only [popWhile] at heq
                rw [heq] at hhead
                have htop : top = "(" := by simpa using hhead
                rw [htop]
                decide
              have hpop := unaries_popWhile y fun top => decide (top ≠ "(")
              have hdrop : ∀ z : Yard, z.stack = top :: stack →
                  ({ z with stack := stack } : Yard).unaries = z.unaries := by
                intro z hz
                simp only [unaries, hz, List.countP_append, List.countP_cons, htop]
                simp
              show (popFunction _).unaries = _
              rw [unaries_popFunction, hdrop _ heq, hpop]
              rfl
          · cases h
            have hitem : isUnary token = false := by
              refine decide_eq_false ?_
              rintro (rfl | rfl) <;> simp [is_operator] at hop
            refine ⟨?_, rfl⟩
            simp only [unaries, List.countP_append, List.countP_cons, List.countP_nil, hitem]
            simp

theorem foldlM_read_unaries {exp : String} {y y' : Yard}
    (h : ts.foldlM (Yard.read exp) y = .ok y') :
    y'.unaries = y.unaries + countUnary false y.canBeUnary ts := by
  induction ts generalizing y with
  | nil =>
    cases h
    rfl
  | cons token ts ih =>
    rw [List.foldlM_cons] at h
    cases hread : y.read exp token with
    | error e =>
      rw [hread] at h
      cases h
    | ok z =>
      rw [hread] at h
      obtain ⟨hcount, hflag⟩ := Yard.read_unaries hread
      rw [ih h, hcount, hflag, countUnary, Nat.add_assoc]

theorem unwind_eq {exp : String} {stack output result : List String}
    (h : unwind exp output stack = .ok result) : result = output ++ stack := by
  induction stack generalizing output with
  | nil =>
    cases h
    exact (List.append_nil _).symm
  | cons top stack ih =>
    rw [unwind] at h
    split at h
    · cases h
    · rw [ih h, List.append_assoc]
      rfl

/-- The unary operators of a result. -/
theorem getPostfix_unaries {text : String} {result : List String}
    (hts : tokens (.new text) = .ok ts) (h : getPostfix text = .ok result) :
    result.countP isUnary = countUnary false true ts := by
  rw [getPostfix_eq hts] at h
  cases hfold : ts.foldlM (Yard.read text) {} with
  | error e =>
    rw [hfold] at h
    cases h
  | ok y =>
    rw [hfold] at h
    have hcount := foldlM_read_unaries hfold
    rw [unwind_eq h]
    exact hcount.trans (Nat.zero_add _)

/-! ### What is written, and what is read -/

theorem leaves_of_word {w : String} (hw : Word w) (b : Bool) : leaves b w = false := by
  refine decide_eq_false ?_
  rintro (hitem | ⟨-, rfl | rfl⟩)
  · have hop := hw.not_operator
    rcases of_decide_eq_true hitem with rfl | rfl <;> simp [is_operator] at hop
  · have hop := hw.not_operator
    simp [is_operator] at hop
  · have hop := hw.not_operator
    simp [is_operator] at hop

theorem admits_of_word {w : String} (hw : Word w) (comma : Bool) : admits comma w = false := by
  simp [admits, hw.not_operator, hw.not_left, hw.not_comma]

/-- The unary operators among the tokens of an operand, or of the arguments in front of a right
parenthesis, where a comma admits them. -/
def Counts : Place → List CallExpr → List String → Prop
  | .operand _, es, ts => ∀ rest,
    countUnary true true (ts ++ rest) = unariesAll es + countUnary true false rest
  | .arguments, es, ts => ∀ rest,
    countUnary true true (ts ++ ")" :: rest) = unariesAll es + countUnary true false rest

/-- A comma that admits unary operators finds all those that are written. -/
theorem Prints.counts {place : Place}
    (h : Prints place es ts) (hw : OverAll Word es) : Counts place es ts := by
  induction h with
  | word =>
    rename_i p w
    intro rest
    show (leaves true w).toNat + countUnary true (admits true w) rest = 0 + 0 + _
    rw [leaves_of_word hw.1, admits_of_word hw.1]
    rfl
  | paren _ ih =>
    rename_i p e ts _
    intro rest
    have hinner := ih hw (")" :: rest)
    rw [List.cons_append, List.cons_append, List.append_assoc]
    show (leaves true "(").toNat + countUnary true (admits true "(") (ts ++ (")" :: rest)) = _
    have hright : countUnary true false (")" :: rest) = countUnary true false rest := by
      simp [countUnary, leaves, admits, isUnary, is_operator]
    rw [hright] at hinner
    have hleft : leaves true "(" = false ∧ admits true "(" = true := ⟨by decide, by decide⟩
    rw [hleft.1, hleft.2, hinner]
    exact Nat.zero_add _
  | unary _ _ ih =>
    rename_i p u e ts _ _
    intro rest
    have hinner := ih hw rest
    show (leaves true u.token).toNat + countUnary true (admits true u.token) (ts ++ rest) = _
    have hu : leaves true u.token = true ∧ admits true u.token = true := by
      cases u <;> exact ⟨by decide, by decide⟩
    rw [hu.1, hu.2, hinner]
    simp only [Bool.toNat_true, unariesAll, CallExpr.unaries]
    omega
  | binary _ _ _ ihl ihr =>
    rename_i p b l r ts us _ _ _
    intro rest
    have hleft := ihl ⟨hw.1.1, trivial⟩ (b.token :: (us ++ rest))
    have hright := ihr ⟨hw.1.2, trivial⟩ rest
    have hb : leaves false b.token = false ∧ admits true b.token = true := by
      obtain ⟨hop, -⟩ := binary_facts b.token b.mem
      have hmem := b.mem
      refine ⟨decide_eq_false ?_, decide_eq_true (.inl hop)⟩
      rintro (hitem | ⟨hf, -⟩)
      · rcases of_decide_eq_true hitem with heq | heq <;> rw [heq] at hmem <;> revert hmem <;> decide
      · cases hf
    rw [List.append_assoc, List.cons_append, hleft]
    show _ + ((leaves false b.token).toNat + countUnary true (admits true b.token) _) = _
    rw [hb.1, hb.2, hright]
    simp only [Bool.toNat_false, unariesAll, CallExpr.unaries]
    omega
  | call _ ih =>
    rename_i p f args ts _
    intro rest
    have hinner := ih hw.1 rest
    obtain ⟨hop, hcomma, hleft, -⟩ := func_facts f
    have hf : leaves true f.name = false ∧ admits true f.name = false := by
      refine ⟨decide_eq_false ?_, by simp [admits, hop, hcomma, hleft]⟩
      rintro (hitem | ⟨-, heq | heq⟩)
      · rcases of_decide_eq_true hitem with heq | heq <;> rw [heq] at hop <;> revert hop <;> decide
      · rw [heq] at hop
        revert hop
        decide
      · rw [heq] at hop
        revert hop
        decide
    rw [List.cons_append, List.cons_append, List.cons_append, List.cons_append, List.append_assoc]
    show (leaves true f.name).toNat + ((leaves (admits true f.name) "(").toNat +
      countUnary true (admits true "(") (ts ++ (")" :: rest))) = _
    have hparen : leaves false "(" = false ∧ admits true "(" = true := ⟨by decide, by decide⟩
    rw [hf.1, hf.2, hparen.1, hparen.2, hinner]
    simp only [Bool.toNat_false, unariesAll, CallExpr.unaries]
    omega
  | no_argument =>
    intro rest
    show (leaves true ")").toNat + countUnary true (admits true ")") rest = 0 + _
    have hright : leaves true ")" = false ∧ admits true ")" = false := ⟨by decide, by decide⟩
    rw [hright.1, hright.2]
    rfl
  | last_argument _ ih =>
    rename_i e ts _
    intro rest
    have hinner := ih hw (")" :: rest)
    rw [hinner]
    show _ + ((leaves false ")").toNat + countUnary true (admits true ")") rest) = _
    have hright : leaves false ")" = false ∧ admits true ")" = false := ⟨by decide, by decide⟩
    rw [hright.1, hright.2]
    exact congrArg _ (Nat.zero_add _)
  | argument _ _ _ ihe ihs =>
    rename_i e es ts us _ _ _
    intro rest
    have hfirst := ihe ⟨hw.1, trivial⟩ ("," :: (us ++ ")" :: rest))
    have hothers := ihs hw.2 rest
    rw [List.append_assoc, List.cons_append, hfirst]
    show _ + ((leaves false ",").toNat + countUnary true (admits true ",") _) = _
    have hcomma : leaves false "," = false ∧ admits true "," = true := ⟨by decide, by decide⟩
    rw [hcomma.1, hcomma.2, hothers]
    simp only [Bool.toNat_false, unariesAll]
    omega

theorem admits_mono (token : String) (h : admits false token = true) : admits true token = true := by
  rcases of_decide_eq_true h with h | h | ⟨h, -⟩
  · exact decide_eq_true (.inl h)
  · exact decide_eq_true (.inr (.inl h))
  · cases h

theorem countUnary_le (ts : List String) {b b' : Bool} (hb : b = true → b' = true) :
    countUnary false b ts ≤ countUnary true b' ts := by
  induction ts generalizing b b' with
  | nil => exact le_refl _
  | cons token ts ih =>
    refine Nat.add_le_add ?_ (ih (admits_mono token))
    have hle : leaves b token = true → leaves b' token = true := by
      intro h
      rcases of_decide_eq_true h with h | ⟨h, h'⟩
      · exact decide_eq_true (.inl h)
      · exact decide_eq_true (.inr ⟨hb h, h'⟩)
    cases hl : leaves b token with
    | false => exact Nat.zero_le _
    | true => rw [hle hl]

/-- Where commas make no difference, none stands in front of a unary operator. -/
theorem isChain_of_countUnary_le (ts : List String) (b : Bool)
    (h : countUnary true b ts ≤ countUnary false b ts) : ts.IsChain NoUnary := by
  induction ts generalizing b with
  | nil => exact List.isChain_nil
  | cons token ts ih =>
    have hrest : countUnary true (admits true token) ts ≤ countUnary false (admits false token) ts := by
      simp only [countUnary] at h
      omega
    by_cases hcomma : token = ","
    · subst hcomma
      have hadmits : admits true "," = true ∧ admits false "," = false := ⟨by decide, by decide⟩
      rw [hadmits.1, hadmits.2] at hrest
      rw [List.isChain_cons]
      cases ts with
      | nil => exact ⟨(fun t ht => by cases ht), List.isChain_nil⟩
      | cons next ts =>
        have hle := @countUnary_le ts (admits false next) (admits true next) (admits_mono next)
        have hnext : next ≠ "-" ∧ next ≠ "NOT" := by
          constructor
          · rintro rfl
            have hflags : leaves true "-" = true ∧ leaves false "-" = false := ⟨by decide, by decide⟩
            simp only [countUnary, hflags.1, hflags.2, Bool.toNat_true, Bool.toNat_false] at hrest
            omega
          · rintro rfl
            have hflags : leaves true "NOT" = true ∧ leaves false "NOT" = false :=
              ⟨by decide, by decide⟩
            simp only [countUnary, hflags.1, hflags.2, Bool.toNat_true, Bool.toNat_false] at hrest
            omega
        refine ⟨?_, ih false ?_⟩
        · intro t ht _
          obtain rfl := Option.some.inj ht
          exact hnext
        · have hflag : leaves true next = leaves false next := by simp [leaves, hnext.1, hnext.2]
          simp only [countUnary] at hrest ⊢
          rw [hflag] at hrest
          exact hrest
    · have hadmits : admits true token = admits false token := by simp [admits, hcomma]
      rw [hadmits] at hrest
      rw [List.isChain_cons]
      exact ⟨fun t _ heq => absurd heq hcomma, ih _ hrest⟩

mutual

theorem countP_render (arity : ℕ → ℕ) (e : CallExpr) (hw : e.Over Word) :
    (e.render arity).countP isUnary = e.unaries := by
  match e, hw with
  | .word w, hw =>
    have hitem : isUnary w = false := by
      have hleaves := leaves_of_word hw false
      simpa [leaves] using hleaves
    simp [CallExpr.render, CallExpr.unaries, hitem]
  | .unary u e, hw =>
    have hitem : isUnary u.rendered = true := by cases u <;> rfl
    simp [CallExpr.render, CallExpr.unaries, List.countP_append, hitem, countP_render arity e hw]
  | .binary b l r, hw =>
    have hitem : isUnary b.token = false := by
      have hmem := b.mem
      refine decide_eq_false ?_
      rintro (heq | heq) <;> rw [heq] at hmem <;> revert hmem <;> decide
    simp [CallExpr.render, CallExpr.unaries, List.countP_append, hitem, countP_render arity l hw.1,
      countP_render arity r hw.2]
  | .call f args, hw =>
    simp only [CallExpr.render, CallExpr.unaries, List.countP_append, List.countP_cons,
      List.countP_nil, isUnary_of_function f.known, isUnary_toString, countP_renderAll arity args hw]
    simp

theorem countP_renderAll (arity : ℕ → ℕ) (es : List CallExpr) (hw : OverAll Word es) :
    (renderAll arity es).countP isUnary = unariesAll es := by
  match es, hw with
  | [], _ => rfl
  | e :: es, hw =>
    simp [renderAll, unariesAll, List.countP_append, countP_render arity e hw.1,
      countP_renderAll arity es hw.2]

end

end CentreonBroker.Bam.ExpParser
