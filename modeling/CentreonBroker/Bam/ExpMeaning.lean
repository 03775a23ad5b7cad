import CentreonBroker.Bam.Ba
import CentreonBroker.Bam.BooleanUpdate
import CentreonBroker.Bam.ExpCallText

/-!
# What a boolean expression means

The value of an expression of constants, operators and statuses of services, in exact arithmetic,
and that the tree which the builder makes of its postfix form has this value: when it is built, and
after any statuses of its services.

Two numbers are equal up to a tolerance, and a divisor within it divides nothing. The builder does
nothing for a unary minus.
-/

namespace CentreonBroker.Bam.ExpParser

open Double ExpBuilder
open ExpTokenizer (isDelimiter isSpecialChar isspace)

/-! ## Values -/

def indicator (p : Prop) [Decidable p] : ℚ := if p then 1 else 0

/-- What a binary operator makes of two numbers, with a tolerance. -/
def operate (tolerance : ℚ) (token : String) (x y : ℚ) : Option ℚ :=
  if token = "&&" ∨ token = "AND" then some (indicator (x ≠ 0 ∧ y ≠ 0))
  else if token = "||" ∨ token = "OR" then some (indicator (x ≠ 0 ∨ y ≠ 0))
  else if token = "^" ∨ token = "XOR" then some (indicator (¬ (x ≠ 0 ↔ y ≠ 0)))
  else if token = "==" ∨ token = "IS" then some (indicator (x = y ∨ |x - y| < tolerance))
  else if token = "!=" ∨ token = "NOT" then some (indicator (¬ (x = y ∨ |x - y| < tolerance)))
  else if token = ">" then some (indicator (y < x))
  else if token = ">=" then some (indicator (y ≤ x))
  else if token = "<" then some (indicator (x < y))
  else if token = "<=" then some (indicator (x ≤ y))
  else if token = "+" then some (x + y)
  else if token = "-" then some (x - y)
  else if token = "*" then some (x * y)
  else if token = "/" then if y = 0 ∨ |y| < tolerance then none else some (x / y)
  else if token = "%" then
    if toLongLong y = 0 then none else some ((toLongLong x).tmod (toLongLong y))
  else none

namespace CallExpr

/-- The value of an expression, if it has one, where the services are in some states. -/
def meaning (tolerance : ℚ) (env : Env) (state : ℕ → ℕ → ℚ) : CallExpr → Option ℚ
  | word w => valueOf env w
  | unary .minus e => (e.meaning tolerance env state).map fun x => -x
  | unary _ e => (e.meaning tolerance env state).map fun x => indicator (x = 0)
  | binary b l r => (l.meaning tolerance env state).bind fun x =>
      (r.meaning tolerance env state).bind fun y => operate tolerance b.token x y
  | call _ [word hst, word svc] =>
    let ids := env.get_service_id hst svc
    some (state ids.1 ids.2)
  | call _ _ => none

/-- The expressions that are constants, operators and statuses of services. -/
def Evaluable (env : Env) : CallExpr → Prop
  | word w => ∃ x, valueOf env w = some x
  | unary _ e => e.Evaluable env
  | binary _ l r => l.Evaluable env ∧ r.Evaluable env
  | call f args => f.name = "SERVICESTATUS" ∧ ∃ hst svc, args = [word hst, word svc] ∧
      (env.get_service_id hst svc).1 ≠ 0 ∧ (env.get_service_id hst svc).2 ≠ 0

/-- No unary minus. -/
def NoMinus : CallExpr → Prop
  | word _ => True
  | unary u e => u ≠ .minus ∧ e.NoMinus
  | binary _ l r => l.NoMinus ∧ r.NoMinus
  | call _ _ => True

end CallExpr

open CallExpr

/-! ## What is built -/

variable {env : Env}

/-- The tree is one of the expression, its services in any state. -/
def Shape (env : Env) : CallExpr → Node → Prop
  | .word w, n => n = .constant (valueOf env w)
  | .unary _ e, n => ∃ m, n = .not m ∧ Shape env e m
  | .binary b l r, n => ∃ op left right kept, n = .binary op left right kept ∧
      binaryOf b.token = some op ∧ Shape env l left ∧ Shape env r right
  | .call _ [.word hst, .word svc], n =>
    ∃ s, n = .service (env.get_service_id hst svc).1 (env.get_service_id hst svc).2 s
  | .call _ _, _ => False

/-- An operand that is the tree of an expression, or the text of a word. -/
def Holds (env : Env) (e : CallExpr) (o : Operand) : Prop :=
  ∀ operands, ∃ n, popOperand env (o :: operands) = .ok (n, operands) ∧ Shape env e n ∧ n.Fresh

/-- The classes of the binary operators. -/
theorem binaryOf_binary (b : Binary) : ∃ op, binaryOf b.token = some op := by
  have hall : ∀ token ∈ binaryTokens, (binaryOf token).isSome = true := by decide +kernel
  exact Option.isSome_iff_exists.mp (hall b.token b.mem)

variable {token : String}

/-- What the builder does for a token that is an operator. -/
theorem loop_operator (hop : is_operator token = true) (rest : List String)
    (operands : List Operand) :
    loop env (token :: rest) operands =
      applyOperator env token operands >>= fun operands => loop env rest operands := by
  cases rest with
  | nil =>
    simp only [loop, hop, if_true]
    cases applyOperator env token operands <;> rfl
  | cons next rest => simp only [loop, hop, if_true]

theorem not_static_of_not_function (h : ExpBuilder.is_function token = false) :
    is_static_function token = false := by
  have hall : ∀ token ∈ ["HOSTSTATUS", "SERVICESTATUS", "METRICS", "METRIC", "CALL"],
      ExpBuilder.is_function token = true := by decide +kernel
  cases hstatic : is_static_function token with
  | false => rfl
  | true =>
    have hmem : token ∈ ["HOSTSTATUS", "SERVICESTATUS", "METRICS", "METRIC", "CALL"] := by
      simpa [is_static_function] using hstatic
    rw [hall token hmem] at h
    cases h

theorem loop_word {w : String} (hw : Word w) (rest : List String) (operands : List Operand) :
    loop env (w :: rest) operands = loop env rest (.text w :: operands) := by
  have hstatic := not_static_of_not_function hw.not_function
  cases rest with
  | nil | cons next rest => simp [loop, hw.not_operator, hstatic, hw.not_function]

/-- A binary operator takes two operands. -/
theorem applyOperator_binary {b : Binary} {op : Operator} (hop : binaryOf b.token = some op)
    {operands : List Operand} {l r : Operand} {left right : Node}
    (hright : popOperand env (r :: l :: operands) = .ok (right, l :: operands))
    (hleft : popOperand env (l :: operands) = .ok (left, operands)) :
    applyOperator env b.token (r :: l :: operands) =
      .ok (.node (Node.mkBinary op left right) :: operands) := by
  have hmem := b.mem
  have hne : b.token ≠ "-u" ∧ b.token ≠ "!" := by
    constructor <;> intro heq <;> rw [heq] at hmem <;> revert hmem <;> decide
  rw [applyOperator, if_neg hne.1, if_neg hne.2, hop]
  show (popOperand env (r :: l :: operands) >>= _) = _
  rw [hright]
  show (popOperand env (l :: operands) >>= _) = _
  rw [hleft]
  rfl

theorem applyOperator_not {operands : List Operand} {o : Operand} {n : Node}
    (h : popOperand env (o :: operands) = .ok (n, operands)) :
    applyOperator env "!" (o :: operands) = .ok (.node (.not n) :: operands) := by
  rw [applyOperator, if_neg (by decide), if_pos rfl, h]
  rfl

/-- The call for the status of a service. -/
theorem loop_service (hstrtol : env.strtol "2" = 2) {hst svc : String} (hhst : Word hst) (hsvc : Word svc)
    (hids : (env.get_service_id hst svc).1 ≠ 0 ∧ (env.get_service_id hst svc).2 ≠ 0)
    (rest : List String) (operands : List Operand) :
    loop env (hst :: svc :: "SERVICESTATUS" :: "2" :: rest) operands =
      loop env rest (.node (.service (env.get_service_id hst svc).1 (env.get_service_id hst svc).2
        ⟨0, 0, false, false⟩) :: operands) := by
  have hf : is_operator "SERVICESTATUS" = false ∧ is_static_function "SERVICESTATUS" = true :=
    ⟨by decide, by decide⟩
  rw [loop_word hhst, loop_word hsvc, loop]
  simp only [hf.1, hf.2, Bool.false_eq_true, if_false, if_true, hstrtol]
  have happly : applyFunction env "SERVICESTATUS" 2 (.text svc :: .text hst :: operands) =
      .ok (.node (.service (env.get_service_id hst svc).1 (env.get_service_id hst svc).2
        ⟨0, 0, false, false⟩) :: operands) := by
    simp [applyFunction, checkArity, popString, hhst.ne_empty, hsvc.ne_empty, hids.1, hids.2, bind,
      Except.bind]
  rw [happly]
  rfl

variable {e : CallExpr}

theorem holds_node {n : Node} (hshape : Shape env e n) (hfresh : n.Fresh) :
    Holds env e (.node n) := fun _ => ⟨n, rfl, hshape, hfresh⟩

/-- **The builder runs the postfix form of an expression.** -/
theorem loop_postorder (hstrtol : env.strtol "2" = 2) (e : CallExpr) (hw : e.Over Word)
    (he : e.Evaluable env) (hminus : e.NoMinus) (rest : List String) (operands : List Operand) :
    ∃ o, Holds env e o ∧ loop env (e.postorder ++ rest) operands = loop env rest (o :: operands) := by
  match e, hw, he, hminus with
  | .word w, hw, _, _ => exact ⟨.text w, fun _ => ⟨_, rfl, rfl, trivial⟩, loop_word hw rest operands⟩
  | .unary u e, hw, he, hminus =>
    obtain ⟨o, ho, hloop⟩ := loop_postorder hstrtol e hw he hminus.2 (u.rendered :: rest) operands
    obtain ⟨n, hpop, hshape, hfresh⟩ := ho operands
    have hnot : u.rendered = "!" := by
      cases u with
      | minus => exact absurd rfl hminus.1
      | bang => rfl
      | not => rfl
    refine ⟨.node (.not n), holds_node ⟨n, rfl, hshape⟩ hfresh, ?_⟩
    rw [postorder, CallExpr.render, List.append_assoc]
    refine hloop.trans ?_
    rw [hnot, loop_operator (by decide), applyOperator_not hpop]
    rfl
  | .binary b l r, hw, he, hminus =>
    obtain ⟨o, ho, hloop⟩ := loop_postorder hstrtol l hw.1 he.1 hminus.1
      (r.postorder ++ b.token :: rest) operands
    obtain ⟨o', ho', hloop'⟩ := loop_postorder hstrtol r hw.2 he.2 hminus.2 (b.token :: rest)
      (o :: operands)
    obtain ⟨left, hleft, hshapel, hfreshl⟩ := ho operands
    obtain ⟨right, hright, hshaper, hfreshr⟩ := ho' (o :: operands)
    obtain ⟨op, hop⟩ := binaryOf_binary b
    refine ⟨.node (Node.mkBinary op left right), holds_node ?_ (Node.mkBinary_fresh hfreshl hfreshr), ?_⟩
    · exact ⟨op, left, right, _, rfl, hop, hshapel, hshaper⟩
    · rw [postorder, CallExpr.render, List.append_assoc, List.append_assoc]
      refine (hloop.trans hloop').trans ?_
      rw [loop_operator (binary_facts b.token b.mem).1, applyOperator_binary hop hright hleft]
      rfl
  | .call f args, hw, ⟨hname, hst, svc, hargs, hids⟩, _ =>
    subst hargs
    refine ⟨_, holds_node ⟨⟨0, 0, false, false⟩, rfl⟩ trivial, ?_⟩
    have hpost : (CallExpr.call f [.word hst, .word svc]).postorder ++ rest =
        hst :: svc :: "SERVICESTATUS" :: "2" :: rest := by
      simp only [postorder, CallExpr.render, renderAll, hname, List.append_nil, List.cons_append,
        List.nil_append, List.length_cons, List.length_nil]
      rfl
    rw [hpost]
    exact loop_service hstrtol hw.1 hw.2.1 hids rest operands

theorem build_postorder (hstrtol : env.strtol "2" = 2) (hw : e.Over Word)
    (he : e.Evaluable env) (hminus : e.NoMinus) :
    ∃ n, build env e.postorder = .ok n ∧ Shape env e n ∧ n.Fresh := by
  obtain ⟨o, ho, hloop⟩ := loop_postorder hstrtol e hw he hminus [] []
  obtain ⟨n, hpop, hshape, hfresh⟩ := ho []
  rw [List.append_nil] at hloop
  refine ⟨n, ?_, hshape, hfresh⟩
  rw [build, hloop]
  show (popOperand env (o :: []) >>= _) = _
  rw [hpop]
  rfl

/-! ## Statuses -/

/-- The shape stays, whatever statuses come. -/
theorem Shape.update (st : Node.Status) (e : CallExpr) {n : Node} (h : Shape env e n)
    (path : List Node.Side) : Shape env e (Node.update st path n).1 := by
  match e, h with
  | .word w, h =>
    subst h
    cases path with
    | nil => exact rfl
    | cons side path => cases side <;> exact rfl
  | .unary u e, ⟨m, hn, hm⟩ =>
    subst hn
    rw [Node.update_not]
    exact ⟨_, rfl, Shape.update st e hm path⟩
  | .binary b l r, ⟨op, left, right, kept, hn, hop, hl, hr⟩ =>
    subst hn
    cases path with
    | nil => exact ⟨op, left, right, kept, rfl, hop, hl, hr⟩
    | cons side path =>
      cases side with
      | left =>
        rw [Node.update_left]
        split
        · exact ⟨op, _, right, _, rfl, hop, Shape.update st l hl path, hr⟩
        · exact ⟨op, left, right, kept, rfl, hop, hl, hr⟩
      | right =>
        rw [Node.update_right]
        split
        · exact ⟨op, left, _, _, rfl, hop, hl, Shape.update st r hr path⟩
        · exact ⟨op, left, right, kept, rfl, hop, hl, hr⟩
  | .call f [.word hst, .word svc], ⟨s, hn⟩ =>
    subst hn
    cases path with
    | nil =>
      rw [Node.update]
      split
      · exact ⟨_, rfl⟩
      · exact ⟨_, rfl⟩
    | cons side path => cases side <;> exact ⟨s, rfl⟩

theorem Shape.run {n : Node} (h : Shape env e n) (us : List (List Node.Side × Node.Status)) :
    Shape env e (n.run us) := by
  induction us generalizing n with
  | nil => exact h
  | cons u us ih => exact ih (h.update u.2 e u.1)

/-- Every operator keeps the hard values of its operands. -/
def HardFresh : Node → Prop
  | .constant _ => True
  | .service _ _ _ => True
  | .not value => HardFresh value
  | .binary _ left right kept => HardFresh left ∧ HardFresh right ∧
      kept.left_hard = left.value_hard ∧ kept.right_hard = right.value_hard

theorem hardFresh_of_fresh {n : Node} (h : n.Fresh) : HardFresh n := by
  induction n with
  | constant value => trivial
  | service host_id service_id s => trivial
  | not value ih => exact ih h
  | binary op left right kept ihl ihr =>
    obtain ⟨hl, hr, ⟨hlh, -⟩, hrh, -⟩ := h
    exact ⟨ihl hl, ihr hr, hlh, hrh⟩

theorem HardFresh.value {n : Node} (h : HardFresh n) : n.value_hard = n.eval_hard := by
  induction n with
  | constant value => rfl
  | service host_id service_id s => rfl
  | not value ih => rw [Node.value_hard, Node.eval_hard, ih h]
  | binary op left right kept ihl ihr =>
    obtain ⟨hl, hr, hlh, hrh⟩ := h
    rw [Node.value_hard, Node.eval_hard, hlh, hrh, ihl hl, ihr hr]

/-- The hard values are refreshed by each status, on both sides. -/
theorem HardFresh.update {st : Node.Status} {path : List Node.Side} {n : Node} (h : HardFresh n) :
    HardFresh (Node.update st path n).1 := by
  induction n generalizing path with
  | constant value => cases path with
    | nil => trivial
    | cons side path => cases side <;> trivial
  | service host_id service_id s =>
    cases path with
    | nil =>
      rw [Node.update]
      split <;> trivial
    | cons side path => cases side <;> trivial
  | not value ih =>
    rw [Node.update_not]
    exact @ih path h
  | binary op left right kept ihl ihr =>
    obtain ⟨hl, hr, hlh, hrh⟩ := h
    cases path with
    | nil => exact ⟨hl, hr, hlh, hrh⟩
    | cons side path =>
      cases side with
      | left =>
        rw [Node.update_left]
        split
        · obtain ⟨⟨hleft, -⟩, hright, -⟩ :=
            Node.childHasUpdate_left op (Node.update st path left).1 right kept
          exact ⟨ihl hl, hr, hleft, hright.trans hrh⟩
        · exact ⟨hl, hr, hlh, hrh⟩
      | right =>
        rw [Node.update_right]
        split
        · obtain ⟨⟨hleft, -⟩, hright, -⟩ :=
            Node.childHasUpdate_right op left (Node.update st path right).1 kept
          exact ⟨hl, ihr hr, hleft.trans hlh, hright⟩
        · exact ⟨hl, hr, hlh, hrh⟩

theorem HardFresh.run {n : Node} (h : HardFresh n) (us : List (List Node.Side × Node.Status)) :
    HardFresh (n.run us) := by
  induction us generalizing n with
  | nil => exact h
  | cons u us ih => exact ih h.update

/-- The services of a tree are known, in some states. -/
def Carries (state : ℕ → ℕ → ServiceState) : Node → Prop
  | .constant _ => True
  | .service host_id service_id s => s = state host_id service_id ∧ s.state_known = true
  | .not value => Carries state value
  | .binary _ left right _ => Carries state left ∧ Carries state right

/-! ## The value of a tree -/

section Values

variable {x y z : ℚ}

theorem ofBool_decide (p : Prop) [Decidable p] : ofBool (decide p) = some (indicator p) := by
  by_cases h : p <;> simp [ofBool, indicator, h]

theorem truth_some (x : ℚ) : truth (some x) = decide (x ≠ 0) := rfl

theorem epsilon_pos : 0 < epsilon := by norm_num [epsilon]

theorem value_equal : Operator.value .equal (some x) (some y) =
    some (indicator (x = y ∨ |x - y| < epsilon)) := by
  have hiff : (|x - y| < epsilon) ↔ (x = y ∨ |x - y| < epsilon) := by
    constructor
    · exact Or.inr
    · rintro (rfl | h)
      · rw [sub_self, abs_zero]
        exact epsilon_pos
      · exact h
  show ofBool (decide (|x - y| < epsilon)) = _
  rw [ofBool_decide]
  exact congrArg some (if_congr hiff rfl rfl)

theorem value_not_equal : Operator.value .not_equal (some x) (some y) =
    some (indicator (¬ (x = y ∨ |x - y| < epsilon))) := by
  have hiff : (epsilon ≤ |x - y|) ↔ ¬ (x = y ∨ |x - y| < epsilon) := by
    rw [not_or, not_lt]
    constructor
    · intro h
      refine ⟨?_, h⟩
      rintro rfl
      rw [sub_self, abs_zero] at h
      exact absurd epsilon_pos (not_lt.mpr h)
    · exact And.right
  show ofBool (decide (epsilon ≤ |x - y|)) = _
  rw [ofBool_decide]
  exact congrArg some (if_congr hiff rfl rfl)

theorem value_and : Operator.value .and (some x) (some y) = some (indicator (x ≠ 0 ∧ y ≠ 0)) := by
  show ofBool (decide (x ≠ 0) && decide (y ≠ 0)) = _
  rw [← Bool.decide_and, ofBool_decide]

theorem value_or : Operator.value .or (some x) (some y) = some (indicator (x ≠ 0 ∨ y ≠ 0)) := by
  show ofBool (decide (x ≠ 0) || decide (y ≠ 0)) = _
  rw [← Bool.decide_or, ofBool_decide]

theorem value_xor : Operator.value .xor (some x) (some y) =
    some (indicator (¬ (x ≠ 0 ↔ y ≠ 0))) := by
  have hxor : ((!decide (x ≠ 0) && decide (y ≠ 0)) || (decide (x ≠ 0) && !decide (y ≠ 0))) =
      decide (¬ (x ≠ 0 ↔ y ≠ 0)) := by
    by_cases hx : x = 0 <;> by_cases hy : y = 0 <;> simp [hx, hy]
  show ofBool ((!decide (x ≠ 0) && decide (y ≠ 0)) || (decide (x ≠ 0) && !decide (y ≠ 0))) = _
  rw [hxor, ofBool_decide]

theorem value_division (h : (if y = 0 ∨ |y| < epsilon then none else some (x / y)) = some z) :
    Operator.value (.operation .division) (some x) (some y) = some z := by
  show (if decide (|y| < epsilon) = true then none else some (x / y)) = some z
  by_cases hy : y = 0 ∨ |y| < epsilon
  · rw [if_pos hy] at h
    cases h
  · rw [if_neg hy] at h
    rw [if_neg, h]
    simpa using fun hlt => hy (.inr hlt)

end Values

/-- An operator of the tree computes what it means. -/
theorem value_of_operate {b : Binary} {op : Operator} (hop : binaryOf b.token = some op) {x y z : ℚ}
    (h : operate epsilon b.token x y = some z) : op.value (some x) (some y) = some z := by
  unfold binaryOf at hop
  unfold operate at h
  by_cases htoken : b.token = "&&" ∨ b.token = "AND"
  · rw [if_pos htoken] at hop h
    cases hop
    rw [← h]
    exact value_and
  rw [if_neg htoken] at hop h
  clear htoken
  by_cases htoken : b.token = "||" ∨ b.token = "OR"
  · rw [if_pos htoken] at hop h
    cases hop
    rw [← h]
    exact value_or
  rw [if_neg htoken] at hop h
  clear htoken
  by_cases htoken : b.token = "^" ∨ b.token = "XOR"
  · rw [if_pos htoken] at hop h
    cases hop
    rw [← h]
    exact value_xor
  rw [if_neg htoken] at hop h
  clear htoken
  by_cases htoken : b.token = "==" ∨ b.token = "IS"
  · rw [if_pos htoken] at hop h
    cases hop
    rw [← h]
    exact value_equal
  rw [if_neg htoken] at hop h
  clear htoken
  by_cases htoken : b.token = "!=" ∨ b.token = "NOT"
  · rw [if_pos htoken] at hop h
    cases hop
    rw [← h]
    exact value_not_equal
  rw [if_neg htoken] at hop h
  clear htoken
  by_cases htoken : b.token = ">"
  · rw [if_pos htoken] at hop h
    cases hop
    rw [← h]
    exact ofBool_decide _
  rw [if_neg htoken] at hop h
  clear htoken
  by_cases htoken : b.token = ">="
  · rw [if_pos htoken] at hop h
    cases hop
    rw [← h]
    exact ofBool_decide _
  rw [if_neg htoken] at hop h
  clear htoken
  by_cases htoken : b.token = "<"
  · rw [if_pos htoken] at hop h
    cases hop
    rw [← h]
    exact ofBool_decide _
  rw [if_neg htoken] at hop h
  clear htoken
  by_cases htoken : b.token = "<="
  · rw [if_pos htoken] at hop h
    cases hop
    rw [← h]
    exact ofBool_decide _
  rw [if_neg htoken] at hop h
  clear htoken
  by_cases htoken : b.token = "+"
  · rw [if_pos htoken] at hop h
    cases hop
    rw [← h]
    exact rfl
  rw [if_neg htoken] at hop h
  clear htoken
  by_cases htoken : b.token = "-"
  · rw [if_pos htoken] at hop h
    cases hop
    rw [← h]
    exact rfl
  rw [if_neg htoken] at hop h
  clear htoken
  by_cases htoken : b.token = "*"
  · rw [if_pos htoken] at hop h
    cases hop
    rw [← h]
    exact rfl
  rw [if_neg htoken] at hop h
  clear htoken
  by_cases htoken : b.token = "/"
  · rw [if_pos htoken] at hop h
    cases hop
    exact value_division h
  rw [if_neg htoken] at hop h
  by_cases htoken' : b.token = "%"
  · rw [if_pos htoken'] at hop h
    cases hop
    exact h
  rw [if_neg htoken'] at hop
  cases hop

/-- The hard value of a tree, afresh, is the one of its expression. -/
theorem eval_of_meaning {state : ℕ → ℕ → ServiceState} (e : CallExpr) (hminus : e.NoMinus) {n : Node}
    (hshape : Shape env e n) (hcarries : Carries state n) :
    (∀ x, e.meaning epsilon env (fun h s => (state h s).state_hard) = some x → n.eval_hard = some x) ∧
      ∀ x, e.meaning epsilon env (fun h s => (state h s).state_soft) = some x → n.eval_soft = some x := by
  match e, hminus, hshape with
  | .word w, _, hshape =>
    subst hshape
    exact ⟨fun x hx => hx, fun x hx => hx⟩
  | .unary u e, hminus, ⟨m, hn, hm⟩ =>
    subst hn
    obtain ⟨hhard, hsoft⟩ := eval_of_meaning e hminus.2 hm hcarries
    have hnot : ∀ x : ℚ, ofBool (!truth (some x)) = some (indicator (x = 0)) := by
      intro x
      have hbool : (!truth (some x)) = decide (x = 0) := by simp [truth_some]
      rw [hbool, ofBool_decide]
    have hunary : ∀ state, (CallExpr.unary u e).meaning epsilon env state =
        (e.meaning epsilon env state).map fun x => indicator (x = 0) := by
      intro state
      cases u with
      | minus => exact absurd rfl hminus.1
      | bang => rfl
      | not => rfl
    constructor
    · intro x hx
      rw [hunary] at hx
      obtain ⟨y, hy, rfl⟩ := Option.map_eq_some_iff.mp hx
      rw [Node.eval_hard, hhard y hy, hnot]
    · intro x hx
      rw [hunary] at hx
      obtain ⟨y, hy, rfl⟩ := Option.map_eq_some_iff.mp hx
      rw [Node.eval_soft, hsoft y hy, hnot]
  | .binary b l r, hminus, ⟨op, left, right, kept, hn, hop, hl, hr⟩ =>
    subst hn
    obtain ⟨hlhard, hlsoft⟩ := eval_of_meaning l hminus.1 hl hcarries.1
    obtain ⟨hrhard, hrsoft⟩ := eval_of_meaning r hminus.2 hr hcarries.2
    constructor
    · intro z hz
      obtain ⟨x, hx, hz⟩ := Option.bind_eq_some_iff.mp hz
      obtain ⟨y, hy, hz⟩ := Option.bind_eq_some_iff.mp hz
      rw [Node.eval_hard, hlhard x hx, hrhard y hy]
      exact value_of_operate hop hz
    · intro z hz
      obtain ⟨x, hx, hz⟩ := Option.bind_eq_some_iff.mp hz
      obtain ⟨y, hy, hz⟩ := Option.bind_eq_some_iff.mp hz
      rw [Node.eval_soft, hlsoft x hx, hrsoft y hy]
      exact value_of_operate hop hz
  | .call f [.word hst, .word svc], _, ⟨s, hn⟩ =>
    subst hn
    obtain ⟨rfl, -⟩ := hcarries
    exact ⟨fun x hx => hx, fun x hx => hx⟩

/-! ## From a text -/

variable {ts : List String}

/-- The last token of an operand is no comma. -/
theorem Prints.getLast {place : Place} {es : List CallExpr} (h : Prints place es ts)
    (hw : OverAll Word es) {p : ℕ} (hplace : place = .operand p) : ∀ t ∈ ts.getLast?, t ≠ "," := by
  induction h generalizing p with
  | word =>
    intro t ht
    obtain rfl := Option.some.inj ht
    exact hw.1.not_comma
  | paren | call =>
    intro t ht
    rw [List.getLast?_append] at ht
    obtain rfl := Option.some.inj ht
    decide
  | unary _ hprints ih =>
    intro t ht
    rw [List.getLast?_cons_of_ne_nil hprints.ne_nil] at ht
    exact ih hw rfl t ht
  | binary _ _ hr _ ihr =>
    intro t ht
    rw [List.getLast?_append_of_ne_nil _ (List.cons_ne_nil _ _),
      List.getLast?_cons_of_ne_nil hr.ne_nil] at ht
    exact ihr ⟨hw.1.2, trivial⟩ rfl t ht
  | no_argument => cases hplace
  | last_argument => cases hplace
  | argument => cases hplace

/-- An argument of `SERVICESTATUS`. -/
def IsWord (e : CallExpr) : Prop := ∃ w, e = .word w

/-- What follows from the arguments being words. -/
def Chains (env : Env) : Place → List CallExpr → List String → Prop
  | .operand _, es, ts => (∀ e ∈ es, e.Evaluable env ∨ IsWord e) → ts.IsChain NoUnary ∧
      ((∀ e ∈ es, IsWord e) → ∀ t ∈ ts.head?, t ≠ "-" ∧ t ≠ "NOT")
  | .arguments, es, ts => (∀ e ∈ es, IsWord e) → ts.IsChain NoUnary ∧
      ∀ t ∈ ts.head?, t ≠ "-" ∧ t ≠ "NOT"

theorem noUnary_of_ne {next : String} (h : token ≠ ",") : NoUnary token next :=
  fun heq => absurd heq h

theorem noUnary_right (token : String) : NoUnary token ")" := fun _ => ⟨by decide, by decide⟩

theorem noUnary_comma (token : String) : NoUnary token "," := fun _ => ⟨by decide, by decide⟩

theorem chain_between {left right : String} (hleft : left ≠ ",")
    (h : ts.IsChain NoUnary) (hright : ∀ token, NoUnary token right) :
    (left :: ts ++ [right]).IsChain NoUnary := by
  rw [List.cons_append, List.isChain_cons]
  refine ⟨fun t _ => noUnary_of_ne hleft, ?_⟩
  rw [List.isChain_append]
  refine ⟨h, List.isChain_singleton _, ?_⟩
  intro x _ y hy
  obtain rfl := Option.some.inj hy
  exact hright x

theorem Prints.chains {place : Place} {es : List CallExpr} (h : Prints place es ts)
    (hw : OverAll Word es) : Chains env place es ts := by
  induction h with
  | word =>
    intro _
    refine ⟨List.isChain_singleton _, fun _ t ht => ?_⟩
    obtain rfl := Option.some.inj ht
    have hop := hw.1.not_operator
    constructor <;> rintro rfl <;> revert hop <;> decide
  | paren _ ih =>
    intro he
    refine ⟨chain_between (by decide) (ih hw he).1 noUnary_right, fun _ t ht => ?_⟩
    obtain rfl := Option.some.inj ht
    decide
  | unary _ _ ih =>
    rename_i p u e ts _ _
    intro he
    have heval : e.Evaluable env ∨ IsWord e := by
      rcases he _ (List.mem_singleton_self _) with he | ⟨w, hw⟩
      · exact .inl he
      · cases hw
    refine ⟨?_, fun hword => ?_⟩
    · rw [List.isChain_cons]
      refine ⟨fun t _ => noUnary_of_ne (by cases u <;> decide), (ih hw fun e' he' => ?_).1⟩
      rwa [List.mem_singleton.mp he']
    · obtain ⟨w, hw⟩ := hword _ (List.mem_singleton_self _)
      cases hw
  | binary _ hl _ ihl ihr =>
    rename_i p b l r ts us _ _
    intro he
    have heval : l.Evaluable env ∧ r.Evaluable env := by
      rcases he _ (List.mem_singleton_self _) with he | ⟨w, hw⟩
      · exact he
      · cases hw
    refine ⟨?_, fun hword => ?_⟩
    · rw [List.isChain_append, List.isChain_cons]
      refine ⟨(ihl ⟨hw.1.1, trivial⟩ fun e' he' => ?_).1,
        ⟨fun t _ => noUnary_of_ne (binary_facts b.token b.mem).2.2.1,
          (ihr ⟨hw.1.2, trivial⟩ fun e' he' => ?_).1⟩, fun x hx y _ => ?_⟩
      · rw [List.mem_singleton.mp he']
        exact .inl heval.1
      · rw [List.mem_singleton.mp he']
        exact .inl heval.2
      · exact noUnary_of_ne (hl.getLast ⟨hw.1.1, trivial⟩ rfl x hx)
    · obtain ⟨w, hw⟩ := hword _ (List.mem_singleton_self _)
      cases hw
  | call _ ih =>
    rename_i p f args ts _
    intro he
    have hwords : ∀ e ∈ args, IsWord e := by
      rcases he _ (List.mem_singleton_self _) with ⟨-, hst, svc, hargs, -⟩ | ⟨w, hw⟩
      · intro e hmem
        rw [hargs] at hmem
        simp only [List.mem_cons, List.not_mem_nil, or_false] at hmem
        rcases hmem with rfl | rfl
        · exact ⟨hst, rfl⟩
        · exact ⟨svc, rfl⟩
      · cases hw
    refine ⟨?_, fun hword => ?_⟩
    · rw [List.cons_append, List.isChain_cons]
      exact ⟨fun t _ => noUnary_of_ne (func_facts f).2.1,
        chain_between (by decide) (ih hw.1 hwords).1 noUnary_right⟩
    · obtain ⟨w, hw⟩ := hword _ (List.mem_singleton_self _)
      cases hw
  | no_argument =>
    intro _
    exact ⟨List.isChain_nil, fun t ht => by cases ht⟩
  | last_argument _ ih =>
    intro he
    obtain ⟨hchain, hhead⟩ := ih hw fun e' he' => .inr (he e' he')
    exact ⟨hchain, hhead he⟩
  | argument hfirst _ _ ihe ihs =>
    rename_i e es ts us _ _
    intro he
    obtain ⟨hchain, hhead⟩ := ihe ⟨hw.1, trivial⟩ fun e' he' =>
      .inr (he e' (by rw [List.mem_singleton.mp he']; exact List.mem_cons_self))
    obtain ⟨hchains, hheads⟩ := ihs hw.2 fun e' he' => he e' (List.mem_cons_of_mem _ he')
    refine ⟨?_, ?_⟩
    · rw [List.isChain_append, List.isChain_cons]
      refine ⟨hchain, ⟨fun t ht _ => hheads t ht, hchains⟩, fun x _ y hy => ?_⟩
      obtain rfl := Option.some.inj hy
      exact noUnary_comma x
    · intro t ht
      rw [List.head?_append_of_ne_nil _ hfirst.ne_nil] at ht
      refine hhead (fun e' he' => ?_) t ht
      rw [List.mem_singleton.mp he']
      exact he e List.mem_cons_self

theorem applied_of_evaluable (e : CallExpr) (he : e.Evaluable env) : e.Applied := by
  match e, he with
  | .word w, _ => trivial
  | .unary u e, he => exact applied_of_evaluable e he
  | .binary b l r, he => exact ⟨applied_of_evaluable l he.1, applied_of_evaluable r he.2⟩
  | .call f args, ⟨_, hst, svc, hargs, _⟩ =>
    subst hargs
    exact ⟨List.cons_ne_nil _ _, trivial, trivial, trivial⟩

/-- The parser gives the postfix form of these expressions. -/
theorem getPostfix_evaluable (he : e.Evaluable env) (hw : e.Over Word)
    {text : String} (hts : Prints (.operand 0) [e] ts) (htext : Text ts text.toList) :
    getPostfix text = .ok e.postorder := by
  refine (getPostfix_iff hw hts htext).mpr ⟨applied_of_evaluable e he, ?_⟩
  refine (@Prints.chains env _ _ _ hts ⟨hw, trivial⟩ fun e' he' => ?_).1
  rw [List.mem_singleton.mp he']
  exact .inl he

/-! ## The state of a boolean expression -/

/-- `bool_expression::get_state`: a `double` against a `bool`. -/
def get_state (impact_if : Bool) (expression : Node) : State :=
  if expression.value_hard = ofBool impact_if then .critical else .ok

/-- Where the value is 0 or 1, the state is about its truth. -/
theorem get_state_iff {n : Node} {x : ℚ} (hvalue : n.value_hard = some x) (hx : x = 0 ∨ x = 1)
    (impact_if : Bool) : get_state impact_if n = .critical ↔ decide (x ≠ 0) = impact_if := by
  unfold get_state
  rw [hvalue]
  rcases hx with rfl | rfl <;> cases impact_if <;> simp [ofBool]

/--
**The tree of an expression has its value**, whatever statuses came, and its state is critical
exactly when the truth of this value is `impact_if`, where it is 0 or 1. The soft value needs the
statuses to be seen by the operators.
-/
theorem build_meaning (env : Env) (hstrtol : env.strtol "2" = 2) (e : CallExpr)
    (hw : e.Over Word) (he : e.Evaluable env) (hminus : e.NoMinus) (ts : List String) (text : String)
    (hts : Prints (.operand 0) [e] ts) (htext : Text ts text.toList) :
    ∃ postfix_ tree, getPostfix text = .ok postfix_ ∧ build env postfix_ = .ok tree ∧
      ∀ (us : List (List Node.Side × Node.Status)) (state : ℕ → ℕ → ServiceState),
        Carries state (tree.run us) →
        (∀ x, e.meaning epsilon env (fun h s => (state h s).state_hard) = some x →
          (tree.run us).value_hard = some x ∧ (x = 0 ∨ x = 1 →
            ∀ impact_if, get_state impact_if (tree.run us) = .critical ↔ decide (x ≠ 0) = impact_if)) ∧
        (tree.SeenRun us →
          ∀ x, e.meaning epsilon env (fun h s => (state h s).state_soft) = some x →
            (tree.run us).value_soft = some x) := by
  obtain ⟨tree, hbuild, hshape, hfresh⟩ := build_postorder hstrtol hw he hminus
  refine ⟨e.postorder, tree, getPostfix_evaluable he hw hts htext, hbuild, fun us state hcarries => ?_⟩
  obtain ⟨hhard, hsoft⟩ := eval_of_meaning e hminus (hshape.run us) hcarries
  constructor
  · intro x hx
    have hvalue : (tree.run us).value_hard = some x := by
      rw [((hardFresh_of_fresh hfresh).run us).value]
      exact hhard x hx
    exact ⟨hvalue, fun h01 impact_if => get_state_iff hvalue h01 impact_if⟩
  · intro hseen x hx
    have hrun : (tree.run us).Fresh := by
      have hall := (hfresh.run_iff us).mpr hseen us.length
      rwa [List.take_length] at hall
    rw [hrun.values.2.1]
    exact hsoft x hx

/-- A service that is critical. -/
theorem build_meaning_critical :
    ∃ postfix_ tree, getPostfix "SERVICESTATUS(host,service)==CRITICAL" = .ok postfix_ ∧
      build oneService postfix_ = .ok tree ∧
        ∀ (us : List (List Node.Side × Node.Status)) (state : ℕ → ℕ → ServiceState),
          Carries state (tree.run us) → (state 1 2).state_hard = 2 →
            (tree.run us).value_hard = some 1 ∧ get_state true (tree.run us) = .critical := by
  let e : CallExpr := .binary ⟨"==", by decide⟩
    (.call ⟨"SERVICESTATUS", rfl⟩ [.word "host", .word "service"]) (.word "CRITICAL")
  have hword : ∀ w ∈ ["host", "service", "CRITICAL"], Word w := by
    intro w hw
    simp only [List.mem_cons, List.not_mem_nil, or_false] at hw
    rcases hw with rfl | rfl | rfl <;>
      exact ⟨by decide, by decide, by decide, by decide, by decide, by decide⟩
  have htext : Text ["SERVICESTATUS", "(", "host", ",", "service", ")", "==", "CRITICAL"]
      "SERVICESTATUS(host,service)==CRITICAL".toList :=
    .glued (token_word (by decide) (by simp [isDelimiter, isSpecialChar, isspace]) rfl)
      (.glued (.symbol (by decide) (fun h => by revert h; decide))
      (.glued (token_word (by decide) (by simp [isDelimiter, isSpecialChar, isspace]) rfl)
      (.glued .comma
      (.glued (token_word (by decide) (by simp [isDelimiter, isSpecialChar, isspace]) rfl)
      (.glued (.symbol (by decide) (fun h => by revert h; decide))
      (.glued (.symbol (by decide) (fun h => by revert h; decide))
      (.glued (@token_ordinary [] _ (by decide)
        (by simp [isDelimiter, isSpecialChar, isspace]) (by simp)) (.nil (by simp)))))))))
  obtain ⟨postfix_, tree, hbehind, hbuild, hrun⟩ := build_meaning oneService rfl e
    ⟨⟨hword "host" (by decide), hword "service" (by decide), trivial⟩, hword "CRITICAL" (by decide)⟩
    ⟨⟨rfl, "host", "service", rfl, by decide, by decide⟩, ⟨2, rfl⟩⟩ ⟨trivial, trivial⟩
    _ "SERVICESTATUS(host,service)==CRITICAL"
    (.binary (by decide) (.call (.argument .word (List.cons_ne_nil _ _) (.last_argument .word))) .word)
    htext
  refine ⟨postfix_, tree, hbehind, hbuild, fun us state hcarries hcritical => ?_⟩
  have hmeaning : e.meaning epsilon oneService (fun h s => (state h s).state_hard) = some 1 := by
    show operate epsilon "==" (state 1 2).state_hard 2 = some 1
    rw [hcritical]
    decide +kernel
  obtain ⟨hvalue, hstate⟩ := (hrun us state hcarries).1 1 hmeaning
  exact ⟨hvalue, (hstate (.inr rfl) true).mpr (by decide)⟩

/-- Two constants that differ by less than the tolerance. -/
def nearlyOne : Env where
  strtod s := if s = "1" then some 1 else some (20001 / 20000)
  strtol s := if s = "2" then 2 else 0
  get_service_id _ _ := (0, 0)

/-- Two constants are equal that are not. -/
theorem not_build_meaning : ¬ ∀ (env : Env) (e : CallExpr) (text : String) (tree : Node),
    env.strtol "2" = 2 → e.Over Word → e.Evaluable env → getPostfix text = .ok e.postorder →
      build env e.postorder = .ok tree → ∀ state, Carries state tree →
        ∀ x, e.meaning 0 env (fun h s => (state h s).state_hard) = some x → tree.value_hard = some x := by
  intro h
  let e : CallExpr := .binary ⟨"==", by decide⟩ (.word "1") (.word "1.00005")
  have hword : ∀ w ∈ ["1", "1.00005"], Word w := by
    intro w hw
    simp only [List.mem_cons, List.not_mem_nil, or_false] at hw
    rcases hw with rfl | rfl <;>
      exact ⟨by decide, by decide, by decide, by decide, by decide, by decide⟩
  have hover : e.Over Word := ⟨hword "1" (by decide), hword "1.00005" (by decide)⟩
  have heval : e.Evaluable nearlyOne := ⟨⟨1, rfl⟩, ⟨20001 / 20000, rfl⟩⟩
  have htext : Text ["1", "==", "1.00005"] "1==1.00005".toList :=
    .glued (token_word (by decide) (by simp [isDelimiter, isSpecialChar, isspace]) rfl)
      (.glued (.symbol (by decide) (fun h => by revert h; decide))
      (.glued (@token_ordinary [] _ (by decide)
        (by simp [isDelimiter, isSpecialChar, isspace]) (by simp)) (.nil (by simp))))
  have hbehind := getPostfix_evaluable heval hover (.binary (by decide) .word .word) htext
  have hvalue := h nearlyOne e "1==1.00005"
    (Node.mkBinary .equal (.constant (some 1)) (.constant (some (20001 / 20000)))) rfl hover heval
    hbehind rfl (fun _ _ => ⟨0, 0, true, false⟩) ⟨trivial, trivial⟩ 0 (by decide +kernel)
  revert hvalue
  decide +kernel

end CentreonBroker.Bam.ExpParser
