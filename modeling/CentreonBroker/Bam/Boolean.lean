import Mathlib

/-!
# Boolean expressions

The nodes that `exp_builder` makes out of a postfix expression. A binary operator keeps the
values of its operands, and refreshes them when an operand says that it changed.

A `double` is an exact number or a NaN. `strtod` and `strtol` are parameters.
-/

namespace CentreonBroker.Bam

/-! ## Numbers -/

/-- A number, or `none` for a NaN. -/
abbrev Double := Option ℚ

namespace Double

/-- `a != b`. A NaN differs from everything. -/
def ne : Double → Double → Bool
  | some x, some y => x ≠ y
  | _, _ => true

/-- `a < b`. -/
def lt : Double → Double → Bool
  | some x, some y => x < y
  | _, _ => false

/-- `a <= b`. -/
def le : Double → Double → Bool
  | some x, some y => x ≤ y
  | _, _ => false

/-- The conversion to `bool`. -/
def truth (a : Double) : Bool := ne a (some 0)

def ofBool (b : Bool) : Double := some (if b then 1 else 0)

/-- `COMPARE_EPSILON`. -/
def epsilon : ℚ := 1 / 10000

def fabs (a : Double) : Double := a.map abs

def lift (f : ℚ → ℚ → ℚ) (a b : Double) : Double := a.bind fun x => b.map (f x)

/-- `static_cast<long long>`, undefined on a NaN. -/
def toLongLong (x : ℚ) : ℤ := x.num.tdiv x.den

end Double

open Double

/-! ## Operators -/

/-- `bool_operation::_type`. -/
inductive Operation where
  | addition
  | substraction
  | multiplication
  | division
  | modulo
  deriving DecidableEq, Repr

/-- The classes derived from `bool_binary_operator`. -/
inductive Operator where
  | and
  | or
  | xor
  | equal
  | not_equal
  | less_than (strict : Bool)
  | more_than (strict : Bool)
  | operation (type : Operation)
  deriving DecidableEq, Repr

/-- `bool_operation::value_hard`, and `value_soft`. -/
def Operation.value : Operation → Double → Double → Double
  | .addition, left, right => lift (· + ·) left right
  | .substraction, left, right => lift (· - ·) left right
  | .multiplication, left, right => lift (· * ·) left right
  | .division, left, right =>
    if lt (fabs right) (some epsilon) then none else lift (· / ·) left right
  | .modulo, some left, some right =>
    if toLongLong right = 0 then none
    else some ((toLongLong left).tmod (toLongLong right))
  | .modulo, _, _ => none

/-- `value_hard` on what is kept of the operands, and `value_soft`. -/
def Operator.value : Operator → Double → Double → Double
  | .and, left, right => ofBool (truth left && truth right)
  | .or, left, right => ofBool (truth left || truth right)
  | .xor, left, right => ofBool ((!truth left && truth right) || (truth left && !truth right))
  | .equal, left, right => ofBool (lt (fabs (lift (· - ·) left right)) (some epsilon))
  | .not_equal, left, right => ofBool (le (some epsilon) (fabs (lift (· - ·) left right)))
  | .less_than strict, left, right => ofBool (if strict then lt left right else le left right)
  | .more_than strict, left, right => ofBool (if strict then lt right left else le right left)
  | .operation type, left, right => type.value left right

/-- Whether an operator refuses its right operand: the end of `bool_operation::state_known`. -/
def Operator.refuses : Operator → Double → Double → Bool
  | .operation .division, right_hard, right_soft =>
    lt (fabs right_hard) (some epsilon) || lt (fabs right_soft) (some epsilon)
  | .operation .modulo, right_hard, right_soft =>
    lt (fabs right_hard) (some epsilon) || lt (fabs right_soft) (some epsilon)
  | _, _, _ => false

/-! ## Nodes -/

/-- The members of `bool_service` that a status sets. -/
structure ServiceState where
  state_hard : ℚ
  state_soft : ℚ
  state_known : Bool
  in_downtime : Bool

/-- What a `bool_binary_operator` keeps. -/
structure Kept where
  left_hard : Double
  left_soft : Double
  right_hard : Double
  right_soft : Double
  state_known : Bool
  in_downtime : Bool

/-- A `bool_value`, with the nodes below it. -/
inductive Node where
  | constant (value : Double)
  | service (host_id service_id : ℕ) (s : ServiceState)
  | not (value : Node)
  | binary (op : Operator) (left right : Node) (kept : Kept)

namespace Node

def value_hard : Node → Double
  | constant value => value
  | service _ _ s => some s.state_hard
  | not value => ofBool !truth value.value_hard
  | binary op _ _ kept => op.value kept.left_hard kept.right_hard

def value_soft : Node → Double
  | constant value => value
  | service _ _ s => some s.state_soft
  | not value => ofBool !truth value.value_soft
  | binary op _ _ kept => op.value kept.left_soft kept.right_soft

def state_known : Node → Bool
  | constant _ => true
  | service _ _ s => s.state_known
  | not value => value.state_known
  | binary op left right kept =>
    left.state_known && right.state_known && !op.refuses kept.right_hard kept.right_soft

def in_downtime : Node → Bool
  | constant _ => false
  | service _ _ s => s.in_downtime
  | not value => value.in_downtime
  | binary _ left right _ => left.in_downtime || right.in_downtime

/-- The operand of a node that an update comes from. -/
inductive Side where
  | left
  | right
  deriving DecidableEq, Repr

/--
`bool_binary_operator::child_has_update`, on what is kept, and what it returns. `retval`
starts as true.
-/
def childHasUpdate (op : Operator) (left right : Node) (child : Side) (kept : Kept) :
    Bool × Kept :=
  let retval := true
  let (retval, kept) := match child with
    | .left =>
      if ne kept.left_hard left.value_hard || ne kept.left_soft left.value_soft then
        (true, { kept with left_hard := left.value_hard, left_soft := left.value_soft })
      else (retval, kept)
    | .right =>
      if ne kept.right_hard right.value_hard || !ne kept.right_soft right.value_soft then
        (true, { kept with right_hard := right.value_hard, right_soft := right.value_soft })
      else (retval, kept)
  let known := (binary op left right kept).state_known
  let (retval, kept) :=
    if kept.state_known ≠ known then (true, { kept with state_known := known })
    else (retval, kept)
  let in_dt := (binary op left right kept).in_downtime
  if kept.in_downtime ≠ in_dt then (true, { kept with in_downtime := in_dt })
  else (retval, kept)

/-! ## Updates -/

/-- The members of a `neb::service_status` that `bool_service` reads. -/
structure Status where
  host_id : ℕ
  service_id : ℕ
  last_hard_state : ℤ
  current_state : ℤ
  downtime_depth : ℤ

/-- What a status sets. -/
def Status.state (st : Status) : ServiceState :=
  ⟨st.last_hard_state, st.current_state, true, 0 < st.downtime_depth⟩

/--
`service_update` on the service that the path leads to, and `propagate_update` from there:
whether the node propagates to its own parent. A node has one parent, so the two loops of
`propagate_update` are about one; `bool_not` lets every update through.
-/
def update (st : Status) : List Side → Node → Node × Bool
  | [], service host_id service_id s =>
    if st.host_id = host_id ∧ st.service_id = service_id then
      (service host_id service_id st.state, true)
    else (service host_id service_id s, false)
  | path, not value =>
    let (value, notified) := update st path value
    (not value, notified)
  | .left :: path, binary op left right kept =>
    let (left, notified) := update st path left
    if notified then
      let (retval, kept) := childHasUpdate op left right .left kept
      (binary op left right kept, retval)
    else (binary op left right kept, false)
  | .right :: path, binary op left right kept =>
    let (right, notified) := update st path right
    if notified then
      let (retval, kept) := childHasUpdate op left right .right kept
      (binary op left right kept, retval)
    else (binary op left right kept, false)
  | _, n => (n, false)

/-- The statuses that the services of an expression receive, one after the other. -/
def run (n : Node) (updates : List (List Side × Status)) : Node :=
  updates.foldl (fun n u => (update u.2 u.1 n).1) n

/-- A binary operator once `set_left` and `set_right` are done. -/
def mkBinary (op : Operator) (left right : Node) : Node :=
  let kept : Kept := ⟨left.value_hard, left.value_soft, right.value_hard, right.value_soft,
    false, false⟩
  let known := (binary op left right kept).state_known
  let in_dt := (binary op left right kept).in_downtime
  binary op left right { kept with state_known := known, in_downtime := in_dt }

end Node

/-! ## The builder -/

/-- An `any_operand`: a node, or a text that is no node yet. -/
inductive Operand where
  | node (n : Node)
  | text (s : String)

namespace ExpBuilder

/-- `exp_parser::is_operator`. -/
def is_operator (token : String) : Bool :=
  ["+", "-", "-u", "*", "/", "%", ">", ">=", "<", "<=", "==", "IS", "NOT", "!=", "!", "AND",
    "^", "XOR", "&&", "OR", "||"].contains token

/-- `exp_parser::is_function`. -/
def is_function (token : String) : Bool :=
  ["HOSTSTATUS", "SERVICESTATUS", "METRICS", "METRIC", "AVERAGE", "COUNT", "MAX", "MIN", "SUM",
    "CALL"].contains token

/-- `_is_static_function`. -/
def is_static_function (token : String) : Bool :=
  ["HOSTSTATUS", "SERVICESTATUS", "METRICS", "METRIC", "CALL"].contains token

/-- The class of a binary operator. -/
def binaryOf (token : String) : Option Operator :=
  if token = "&&" ∨ token = "AND" then some .and
  else if token = "||" ∨ token = "OR" then some .or
  else if token = "^" ∨ token = "XOR" then some .xor
  else if token = "==" ∨ token = "IS" then some .equal
  else if token = "!=" ∨ token = "NOT" then some .not_equal
  else if token = ">" then some (.more_than true)
  else if token = ">=" then some (.more_than false)
  else if token = "<" then some (.less_than true)
  else if token = "<=" then some (.less_than false)
  else if token = "+" then some (.operation .addition)
  else if token = "-" then some (.operation .substraction)
  else if token = "*" then some (.operation .multiplication)
  else if token = "/" then some (.operation .division)
  else if token = "%" then some (.operation .modulo)
  else none

/-- What the builder is given: the C library, and `get_service_id`. -/
structure Env where
  strtod : String → Double
  strtol : String → ℤ
  get_service_id : String → String → ℕ × ℕ

variable (env : Env)

/-- How `_pop_operand` turns a text into a constant. -/
def valueOf (s : String) : Double :=
  if s = "OK" then some 0
  else if s = "WARNING" then some 1
  else if s = "CRITICAL" then some 2
  else if s = "UNKNOWN" then some 3
  else if s = "UP" then some 0
  else if s = "DOWN" then some 1
  else if s = "UNREACHABLE" then some 2
  else env.strtod s

/-- `_pop_operand`. -/
def popOperand : List Operand → Except String (Node × List Operand)
  | [] => .error "syntax error: operand is missing for operator or function"
  | .node n :: operands => .ok (n, operands)
  | .text s :: operands => .ok (.constant (valueOf env s), operands)

/-- `_pop_string`. -/
def popString : List Operand → Except String (String × List Operand)
  | [] => .error "syntax error: operand is missing for operator or function"
  | .node _ :: _ => .error "syntax error: operand was expected to be a string"
  | .text s :: operands =>
    if s = "" then .error "syntax error: operand was expected to be a string"
    else .ok (s, operands)

/-- `_check_arity`. -/
def checkArity (func : String) (expected given : ℤ) : Except String Unit :=
  if expected ≠ given then
    .error ("invalid argument count for " ++ func ++ ": it expects " ++ toString expected ++
      " arguments, " ++ toString given ++ " given")
  else .ok ()

/-- An operator. -/
def applyOperator (token : String) (operands : List Operand) : Except String (List Operand) :=
  if token = "-u" then .ok operands
  else if token = "!" then do
    let (arg, operands) ← popOperand env operands
    .ok (.node (.not arg) :: operands)
  else
    match binaryOf token with
    | none => .error ("unsupported operator " ++ token ++ " found while parsing expression")
    | some op => do
      let (right, operands) ← popOperand env operands
      let (left, operands) ← popOperand env operands
      .ok (.node (Node.mkBinary op left right) :: operands)

/-- A call of a static function. Only `SERVICESTATUS` leaves an operand. -/
def applyFunction (func : String) (arity : ℤ) (operands : List Operand) :
    Except String (List Operand) :=
  if func = "HOSTSTATUS" then do
    checkArity "HOSTSTATUS()" 1 arity
    let (_, operands) ← popString operands
    .ok operands
  else if func = "SERVICESTATUS" then do
    checkArity "SERVICESTATUS()" 2 arity
    let (svc, operands) ← popString operands
    let (hst, operands) ← popString operands
    let ids := env.get_service_id hst svc
    if ids.1 = 0 ∨ ids.2 = 0 then
      .error ("could not find ID of service '" ++ svc ++ "' and/or of host '" ++ hst ++ "'")
    else .ok (.node (.service ids.1 ids.2 ⟨0, 0, false, false⟩) :: operands)
  else if func = "METRIC" then do
    checkArity "METRIC()" 3 arity
    let (_, operands) ← popString operands
    let (_, operands) ← popString operands
    let (_, operands) ← popString operands
    .ok operands
  else if func = "METRICS" then do
    checkArity "METRICS()" 1 arity
    let (_, operands) ← popString operands
    .ok operands
  else if func = "CALL" then do
    checkArity "CALL()" 1 arity
    let (_, operands) ← popString operands
    .ok operands
  else .error ("unsupported static function '" ++ func ++ "'")

/-- The loop over the tokens. A function stands before its arity. -/
def loop : List String → List Operand → Except String (List Operand)
  | [], operands => .ok operands
  | [token], operands =>
    if is_operator token then applyOperator env token operands
    else if is_static_function token ∨ is_function token then
      .error ("internal expression parsing error: no arity placed after function name in " ++
        "postfix notation")
    else .ok (.text token :: operands)
  | token :: next :: rest, operands =>
    if is_operator token then do
      let operands ← applyOperator env token operands
      loop (next :: rest) operands
    else if is_static_function token then do
      let operands ← applyFunction env token (env.strtol next) operands
      loop rest operands
    else if is_function token then loop rest operands
    else loop (next :: rest) (.text token :: operands)

/-- The constructor of `exp_builder`: the tree, if the expression has one. -/
def build (postfix_ : List String) : Except String Node := do
  let operands ← loop env postfix_ []
  let (tree, operands) ← popOperand env operands
  if operands.isEmpty then .ok tree
  else .error "unable to build an expression: incorrect syntax"

end ExpBuilder

end CentreonBroker.Bam
