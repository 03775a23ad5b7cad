import Mathlib.Data.Int.Notation
import Mathlib.Data.List.DropRight
import Mathlib.Logic.Function.Basic

/-!
# Centreon Engine object files

An object file is written by appending to a string. It is read by a state machine with five states,
which leaves tokens; an iterator goes over the tokens of one parent, and a map is filled with what
it finds.
-/

namespace CentreonBroker.Ceof

/-! ## Writing -/

/-- The word that opens an object. -/
def define : List Char := ['d', 'e', 'f', 'i', 'n', 'e']

/-- `ceof_writer`: the string written so far. -/
abbrev Writer := List Char

def Writer.openObject (w : Writer) (object_type : List Char) : Writer :=
  w ++ define ++ ' ' :: object_type ++ [' ', '{', '\n']

def Writer.addKey (w : Writer) (key : List Char) : Writer := w ++ key ++ [' ']

def Writer.addValue (w : Writer) (value : List Char) : Writer := w ++ value ++ ['\n']

def Writer.closeObject (w : Writer) : Writer := w ++ ['}', '\n']

/-! ## Tokens -/

inductive TokenType where
  | object
  | key
  | value
  deriving DecidableEq, Repr

/-- `ceof_token`. -/
structure Token where
  type : TokenType
  value : List Char
  token_number : ℤ
  parent_token : ℤ
  deriving DecidableEq, Repr

/-- The states of `parse`. -/
inductive State where
  | waiting_for_define
  | waiting_for_object_name
  | waiting_for_object_opening
  | in_object_waiting_for_key
  | in_object_waiting_for_value
  deriving DecidableEq, Repr

/-- The variables of `parse`. -/
structure Parser where
  state : State
  parent_token : ℤ
  tokens : List Token
  deriving DecidableEq, Repr

def Parser.init : Parser := { state := .waiting_for_define, parent_token := -1, tokens := [] }

/-- The characters before a token. -/
def blank (state : State) (c : Char) : Bool :=
  match state with
  | .in_object_waiting_for_value => c = ' ' || c = '\t'
  | _ => c = ' ' || c = '\t' || c = '\n'

/-- The characters that end a token. -/
def ends (state : State) (c : Char) : Bool :=
  match state with
  | .in_object_waiting_for_value => c = '\n'
  | _ => c = ' ' || c = '\t' || c = '\n'

/-- `skip`: what is left behind blanks and comments, nothing for `npos`. With `comment`, the newline
that ends one is looked for. -/
def skip (characters : Char → Bool) : Bool → List Char → List Char
  | _, [] => []
  | comment, c :: s =>
    if comment then skip characters (c ≠ '\n') s
    else if characters c then skip characters false s
    else if c = '#' then skip characters true s
    else c :: s

/-- What `find_last_not_of` and `substr` leave of a value. -/
def trim (s : List Char) : List Char := s.rdropWhile fun c => c = ' ' || c = '\t'

/-- The switch over the states, at a token. -/
def Parser.token (p : Parser) (actual : ℕ) (substr : List Char) : Except String Parser :=
  match p.state with
  | .waiting_for_define =>
    if substr ≠ define then .error s!"expected 'define' at position {actual}"
    else .ok { p with state := .waiting_for_object_name }
  | .waiting_for_object_name =>
    .ok { state := .waiting_for_object_opening
          parent_token := p.tokens.length
          tokens := p.tokens ++ [⟨.object, substr, p.tokens.length, -1⟩] }
  | .waiting_for_object_opening =>
    if substr ≠ ['{'] then .error s!"expected '\x7b' at position {actual}"
    else .ok { p with state := .in_object_waiting_for_key }
  | .in_object_waiting_for_key =>
    if substr = ['}'] then .ok { p with state := .waiting_for_define }
    else
      .ok { p with
            state := .in_object_waiting_for_value
            tokens := p.tokens ++ [⟨.key, substr, p.tokens.length, p.parent_token⟩] }
  | .in_object_waiting_for_value =>
    if substr = ['}'] then .error s!"expected value instead of '\x7b' at position {actual}"
    else
      .ok { p with
            state := .in_object_waiting_for_key
            tokens := p.tokens ++ [⟨.value, trim substr, p.tokens.length, p.parent_token⟩] }

/-! ### The loop -/

theorem length_skip_le (characters : Char → Bool) (comment : Bool) (s : List Char) :
    (skip characters comment s).length ≤ s.length := by
  induction s generalizing comment with
  | nil => exact Nat.zero_le _
  | cons c s ih =>
    rw [skip]
    split_ifs
    · exact Nat.le_succ_of_le (ih _)
    · exact Nat.le_succ_of_le (ih _)
    · exact Nat.le_succ_of_le (ih _)
    · exact Nat.le_refl _

variable {s rest : List Char}

/-- What is left begins with neither a blank nor a comment. -/
theorem skip_head {characters : Char → Bool} {comment : Bool} {c : Char}
    (h : skip characters comment s = c :: rest) : characters c = false ∧ c ≠ '#' := by
  induction s generalizing comment with
  | nil => cases h
  | cons x s ih =>
    rw [skip] at h
    split_ifs at h with hcomment hblank hhash
    · exact ih h
    · exact ih h
    · exact ih h
    · cases h
      exact ⟨Bool.eq_false_iff.mpr hblank, hhash⟩

variable {p : Parser}

/-- Behind a value there is a key. -/
theorem state_of_token {p' : Parser} {actual : ℕ} {substr : List Char}
    (h : p.token actual substr = .ok p') (hvalue : p.state = .in_object_waiting_for_value) :
    p'.state = .in_object_waiting_for_key := by
  unfold Parser.token at h
  rw [hvalue] at h
  dsimp only at h
  split at h
  · cases h
  · cases h
    rfl

/-- What decreases: the text, and with it the value that is waited for. -/
def measure (p : Parser) (s : List Char) : ℕ :=
  2 * s.length + if p.state = .in_object_waiting_for_value then 1 else 0

theorem measure_lt {p' : Parser} {c : Char} {actual : ℕ}
    {substr : List Char} (hskip : skip (blank p.state) false s = c :: rest)
    (htoken : p.token actual substr = .ok p') :
    measure p' ((c :: rest).dropWhile fun x => !ends p.state x) < measure p s := by
  have hlength := length_skip_le (blank p.state) false s
  rw [hskip] at hlength
  have hdrop := List.length_dropWhile_le (fun x => !ends p.state x) (c :: rest)
  by_cases hvalue : p.state = .in_object_waiting_for_value
  · have hkey := state_of_token htoken hvalue
    rw [measure, measure, if_pos hvalue, if_neg (by rw [hkey]; decide)]
    omega
  · -- a token that is no value has a character
    have hends : ends p.state c = false := by
      have hblank := (skip_head hskip).1
      revert hvalue hblank
      cases p.state <;> simp [blank, ends]
    have hrest := List.length_dropWhile_le (fun x => !ends p.state x) rest
    rw [List.dropWhile_cons, hends, measure, measure, if_neg hvalue]
    rw [List.length_cons] at hlength
    simp only [Bool.not_false, if_true]
    split <;> omega

/-- The loop of `parse`, for a string of this size, at what is left of it. -/
def loop (size : ℕ) (p : Parser) (s : List Char) : Except String (List Token) :=
  match _hskip : skip (blank p.state) false s with
  | [] => .ok p.tokens
  | c :: rest =>
    let substr := (c :: rest).takeWhile fun x => !ends p.state x
    match _htoken : p.token (size - (c :: rest).length) substr with
    | .error e => .error e
    | .ok p' => loop size p' ((c :: rest).dropWhile fun x => !ends p.state x)
termination_by measure p s
decreasing_by exact measure_lt _hskip _htoken

/-- `parse`. The string may end in any state. -/
def parse (string : List Char) : Except String (List Token) := loop string.length .init string

theorem loop_of_skip_nil {size : ℕ}
    (h : skip (blank p.state) false s = []) : loop size p s = .ok p.tokens := by
  rw [loop]
  split
  · rfl
  · rename_i hskip
    cases h.symm.trans hskip

theorem loop_of_skip_cons {size : ℕ} {c : Char}
    (h : skip (blank p.state) false s = c :: rest) :
    loop size p s =
      (p.token (size - (c :: rest).length) ((c :: rest).takeWhile fun x => !ends p.state x)).bind
        fun p' => loop size p' ((c :: rest).dropWhile fun x => !ends p.state x) := by
  rw [loop]
  split
  · rename_i hskip
    cases h.symm.trans hskip
  · rename_i hskip
    cases h.symm.trans hskip
    dsimp only
    split
    · rename_i htoken
      rw [htoken]
      rfl
    · rename_i htoken
      rw [htoken]
      rfl

/-! ## Iterating -/

/-- `ceof_iterator`: the tokens from the current one to the end. -/
abbrev Iterator := List Token

/-- `operator++`. -/
def Iterator.next : Iterator → Iterator
  | [] => []
  | t :: it => it.dropWhile fun u => u.parent_token ≠ t.parent_token

def Iterator.hasChildren : Iterator → Bool
  | t :: u :: _ => u.parent_token = t.token_number
  | _ => false

def Iterator.enterChildren (it : Iterator) : Iterator := if it.hasChildren then it.tail else []

variable {it : Iterator}

theorem length_next_lt {t : Token} :
    (Iterator.next (t :: it)).length < (t :: it).length :=
  Nat.lt_succ_of_le (List.length_dropWhile_le _ _)

/-- `ceof_deserializer::_values`. -/
abbrev Values := List Char → Option (List Char)

/-- The loop of the constructor of `ceof_deserializer`. -/
def deserialize : Values → Iterator → Values
  | values, [] => values
  | values, t :: it =>
    match _hnext : Iterator.next (t :: it) with
    -- a key without a value, from which the source goes past the end
    | [] => values
    | u :: it' =>
      deserialize (Function.update values t.value (some u.value)) (Iterator.next (u :: it'))
termination_by _ it => it.length
decreasing_by
  have hnext : (Iterator.next (t :: it)).length < (t :: it).length := length_next_lt
  rw [_hnext] at hnext
  exact Nat.lt_trans length_next_lt hnext

theorem deserialize_cons {values : Values} {t u : Token} {it' : Iterator}
    (h : Iterator.next (t :: it) = u :: it') :
    deserialize values (t :: it) =
      deserialize (Function.update values t.value (some u.value)) (Iterator.next (u :: it')) := by
  rw [deserialize]
  split
  · rename_i hnil
    cases h.symm.trans hnil
  · rename_i hnext
    cases h.symm.trans hnext
    rfl

theorem deserialize_of_next_nil {values : Values} {t : Token}
    (h : Iterator.next (t :: it) = []) : deserialize values (t :: it) = values := by
  rw [deserialize]
  split
  · rfl
  · rename_i hnext
    cases h.symm.trans hnext

/-- The objects that an iterator goes over, with their types and what is deserialized of them. -/
def objects : Iterator → List (List Char × Values)
  | [] => []
  | t :: it =>
    (t.value, deserialize (fun _ => none) (Iterator.enterChildren (t :: it))) ::
      objects (Iterator.next (t :: it))
termination_by it => it.length
decreasing_by exact length_next_lt

end CentreonBroker.Ceof
