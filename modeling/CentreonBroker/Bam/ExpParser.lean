import CentreonBroker.Bam.Boolean
import CentreonBroker.Bam.ExpTokenizer

/-!
# The parser of boolean expressions

`exp_parser::get_postfix` turns an infix expression into its postfix notation, with the shunting
yard algorithm: operators wait on a stack until one of lower precedence comes, or the closing
parenthesis of theirs.
-/

namespace CentreonBroker.Bam.ExpParser

open ExpBuilder (is_operator is_function)

/-- The tokens of the expression, up to the first empty one. -/
def tokens (t : ExpTokenizer) : Except String (List String) :=
  match _h : t.next with
  | .error e => .error e
  | .ok (token, t') => if _hne : token = "" then .ok [] else (tokens t').map (token :: ·)
termination_by t.measure
decreasing_by exact ExpTokenizer.measure_next _h _hne

/-- What the constructor puts in `_precedence`. -/
def precedenceTable : List (String × ℕ) :=
  [("&&", 2), ("AND", 2), ("||", 2), ("OR", 2), ("IS", 3), ("^", 2), ("XOR", 2), ("NOT", 3),
    (">", 3), (">=", 3), ("<", 3), ("<=", 3), ("==", 3), ("!=", 3), ("+", 4), ("-", 4), ("*", 5),
    ("/", 5), ("%", 5), ("-u", 6), ("!", 6)]

/-- `_precedence[token]`. -/
def precedence (token : String) : ℕ := (precedenceTable.lookup token).getD 0

/-- The state of the loop of `get_postfix`. The top of a stack is its head. -/
structure Yard where
  output : List String := []
  stack : List String := []
  arity : List ℕ := []
  canBeUnary : Bool := true

/-- Pop operators to the output, while they satisfy `p`. -/
def Yard.popWhile (y : Yard) (p : String → Bool) : Yard :=
  { y with output := y.output ++ y.stack.takeWhile p, stack := y.stack.dropWhile p }

def mismatched (exp : String) : String :=
  "mismatched parentheses found while parsing the following expression: " ++ exp

/-- After a left parenthesis is popped: a function under it goes to the output with its arity. -/
def Yard.popFunction (y : Yard) : Yard :=
  match y.stack with
  | [] => y
  | f :: stack =>
    if is_function f then
      { y with
        output := y.output ++ [f, toString (y.arity.headD 0)]
        stack := stack
        arity := y.arity.tail }
    else y

/-- One turn of the loop of `get_postfix`. -/
def Yard.read (exp : String) (y : Yard) (token : String) : Except String Yard :=
  if is_function token then
    .ok { y with stack := token :: y.stack, arity := 1 :: y.arity, canBeUnary := false }
  else if token = "," then
    let y := y.popWhile fun top => top ≠ "("
    match y.stack with
    | [] => .error (mismatched exp)
    | _ :: _ =>
      match y.arity with
      | [] =>
        .error ("found comma outside function call while parsing the following expression: " ++ exp)
      | n :: arity => .ok { y with arity := (n + 1) :: arity, canBeUnary := false }
  else if is_operator token then
    if y.canBeUnary ∧ token = "-" then .ok { y with stack := "-u" :: y.stack, canBeUnary := true }
    else if y.canBeUnary ∧ (token = "NOT" ∨ token = "!") then
      .ok { y with stack := "!" :: y.stack, canBeUnary := true }
    else
      let y := y.popWhile fun top => is_operator top && precedence token ≤ precedence top
      .ok { y with stack := token :: y.stack, canBeUnary := true }
  else if token = "(" then .ok { y with stack := token :: y.stack, canBeUnary := true }
  else if token = ")" then
    let y := y.popWhile fun top => top ≠ "("
    match y.stack with
    | [] => .error (mismatched exp)
    | _ :: stack => .ok { Yard.popFunction { y with stack := stack } with canBeUnary := false }
  else .ok { y with output := y.output ++ [token], canBeUnary := false }

/-- The end of `get_postfix`: what is left on the stack goes to the output. -/
def unwind (exp : String) (output : List String) : List String → Except String (List String)
  | [] => .ok output
  | token :: stack =>
    if token = "(" then .error (mismatched exp) else unwind exp (output ++ [token]) stack

/-- `get_postfix`, on a parser that was just built for `exp`. -/
def getPostfix (exp : String) : Except String (List String) := do
  let tokens ← tokens (.new exp)
  let y ← tokens.foldlM (Yard.read exp) {}
  unwind exp y.output y.stack

end CentreonBroker.Bam.ExpParser
