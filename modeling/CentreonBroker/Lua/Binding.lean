import CentreonBroker.Lib.Runs
import Mathlib.Algebra.BigOperators.Group.List.Basic
import Mathlib.Algebra.GroupWithZero.Nat

/-!
# The calls of a script

`luabinding` gives each event to the functions `filter` and `write` of a script, and calls its
function `flush`. A function that returns true acknowledges all events so far. Of the stack of the
interpreter only its height matters.
-/

namespace CentreonBroker.Lua

/-- What a function of the script does. -/
inductive Result where
  | bool (b : Bool)
  /-- A value that is no boolean. -/
  | other
  | error
  deriving DecidableEq, Repr

/-- The optional functions that the script has. -/
structure Script where
  filter : Bool
  flush : Bool

/-! ## The stack -/

/-- `lua_settop`. -/
def settop (idx : ℤ) (height : ℕ) : ℕ :=
  if 0 ≤ idx then idx.toNat else (height + idx + 1).toNat

/-- `lua_pop`, a macro of the interpreter. -/
def lua_pop (n : ℤ) (height : ℕ) : ℕ := settop (-n - 1) height

/-- `lua_pcall` for one result: it removes the function and its arguments, and leaves the result or
the error. -/
def pcall (args height : ℕ) : ℕ := height - (args + 1) + 1

/-- `luabinding`. -/
structure Binding where
  height : ℕ
  /-- `_total`. -/
  total : ℕ
  deriving DecidableEq

namespace Binding

/-- The end of `write` and of `flush`, behind the call of the function. -/
def answer (b : Binding) (r : Result) : Binding × ℕ :=
  match r with
  | .error | .other => (b, 0)
  | .bool acknowledge =>
    let b := { b with height := lua_pop (-1) b.height }
    if acknowledge then ({ b with total := 0 }, b.total) else (b, 0)

/-- The call of the function `write`, with the event as its argument. -/
def callWrite (b : Binding) (write : Result) : Binding × ℕ :=
  { b with height := pcall 1 (b.height + 2) }.answer write

/-- `luabinding::write`. -/
def write (c : Script) (b : Binding) (filter write : Result) : Binding × ℕ :=
  let b := { b with total := b.total + 1 }
  if c.filter then
    let b := { b with height := pcall 2 (b.height + 3) }
    match filter with
    | .error | .other => (b, 0)
    | .bool execute =>
      let b := { b with height := lua_pop (-1) b.height }
      if execute then b.callWrite write else (b, 0)
  else b.callWrite write

/-- `luabinding::flush`. -/
def flush (c : Script) (b : Binding) (flush : Result) : Binding × ℕ :=
  if c.flush then { b with height := pcall 0 (b.height + 1) }.answer flush else (b, 0)

end Binding

inductive Op (ε : Type) where
  | write (e : ε) (filter write : Result)
  | flush (flush : Result)

/-- The binding, and what its caller has: the events, those acknowledged, those that wait for it,
and the counts that were returned. -/
structure State (ε : Type) where
  binding : Binding
  written : List ε
  acknowledged : List ε
  waiting : List ε
  returned : List ℕ

variable {ε : Type}

def State.new : State ε := ⟨⟨0, 0⟩, [], [], [], []⟩

/-- The caller takes a count: as many events are acknowledged, the oldest first. -/
def State.count (s : State ε) (r : Binding × ℕ) : State ε :=
  { binding := r.1
    written := s.written
    acknowledged := s.acknowledged ++ s.waiting.take r.2
    waiting := s.waiting.drop r.2
    returned := s.returned ++ [r.2] }

def step (c : Script) (s : State ε) : Op ε → State ε
  | .write e filter write =>
    { s with written := s.written ++ [e], waiting := s.waiting ++ [e] }.count
      (s.binding.write c filter write)
  | .flush flush => s.count (s.binding.flush c flush)

/-! ## What is asked -/

/-- What holds of the counts in every run: each event is acknowledged at most once, in order, and
those that are not are counted in `_total`. -/
structure Counted (s : State ε) : Prop where
  sum : s.returned.sum + s.binding.total = s.written.length
  order : s.acknowledged ++ s.waiting = s.written
  length : s.acknowledged.length = s.returned.sum

structure Good (s : State ε) : Prop where
  empty : s.binding.height = 0
  counted : Counted s

/-- The functions that are called return booleans. -/
def Script.Fine (c : Script) : Op ε → Prop
  | .write _ filter write =>
    (c.filter → ∃ b, filter = .bool b) ∧ ((c.filter → filter = .bool true) → ∃ b, write = .bool b)
  | .flush flush => c.flush → ∃ b, flush = .bool b

/-! ## One call -/

theorem lua_pop_neg_one (height : ℕ) : lua_pop (-1) height = 0 := rfl

namespace Binding

/-- A count is that of all events so far, or none. -/
theorem answer_total (b : Binding) (r : Result) :
    (b.answer r).2 + (b.answer r).1.total = b.total := by
  unfold answer
  split
  · exact Nat.zero_add _
  · exact Nat.zero_add _
  · split
    · exact Nat.add_zero _
    · exact Nat.zero_add _

theorem answer_height (b : Binding) (r : Result) (h : b.height ≠ 0) :
    (b.answer r).1.height = 0 ↔ ∃ v, r = .bool v := by
  cases r with
  | error => exact iff_of_false h nofun
  | other => exact iff_of_false h nofun
  | bool v => cases v <;> exact iff_of_true rfl ⟨_, rfl⟩

theorem callWrite_total (b : Binding) (write : Result) :
    (b.callWrite write).2 + (b.callWrite write).1.total = b.total := answer_total _ write

theorem callWrite_height (b : Binding) (write : Result) :
    (b.callWrite write).1.height = 0 ↔ ∃ v, write = .bool v :=
  answer_height _ write (Nat.succ_ne_zero _)

theorem write_total (c : Script) (b : Binding) (filter write : Result) :
    (b.write c filter write).2 + (b.write c filter write).1.total = b.total + 1 := by
  unfold Binding.write
  split
  · split
    · exact Nat.zero_add _
    · exact Nat.zero_add _
    · split
      · exact callWrite_total _ write
      · exact Nat.zero_add _
  · exact callWrite_total _ write

theorem flush_total (c : Script) (b : Binding) (flush : Result) :
    (b.flush c flush).2 + (b.flush c flush).1.total = b.total := by
  unfold Binding.flush
  split
  · exact answer_total _ flush
  · exact Nat.zero_add _

/-- The stack is empty behind a call exactly when the functions that are called return booleans. -/
theorem write_height (c : Script) (b : Binding) (e : ε) (filter write : Result) :
    (b.write c filter write).1.height = 0 ↔ c.Fine (.write e filter write) := by
  unfold Binding.write Script.Fine
  cases c.filter with
  | true =>
    cases filter with
    | error => simp [pcall]
    | other => simp [pcall]
    | bool execute =>
      cases execute with
      | true =>
        rw [if_pos rfl]
        exact (callWrite_height _ write).trans (by simp)
      | false => simp [lua_pop_neg_one]
  | false =>
    rw [if_neg (by decide)]
    exact (callWrite_height _ write).trans (by simp)

theorem flush_height (c : Script) {b : Binding} (h : b.height = 0) (flush : Result) :
    (b.flush c flush).1.height = 0 ↔ c.Fine (.flush flush : Op ε) := by
  unfold Binding.flush Script.Fine
  cases c.flush with
  | true =>
    rw [if_pos rfl]
    exact (answer_height _ flush (Nat.succ_ne_zero _)).trans (by simp)
  | false => simp [h]

end Binding

/-! ## Runs -/

/-- A count that is not above the number of events that wait is taken from them. -/
theorem counted_count {s : State ε} {r : Binding × ℕ} (hle : r.2 ≤ s.waiting.length)
    (hsum : s.returned.sum + r.2 + r.1.total = s.written.length)
    (horder : s.acknowledged ++ s.waiting = s.written)
    (hlength : s.acknowledged.length = s.returned.sum) : Counted (s.count r) := by
  refine ⟨?_, ?_, ?_⟩
  · simpa [State.count] using hsum
  · show s.acknowledged ++ s.waiting.take r.2 ++ s.waiting.drop r.2 = s.written
    rw [List.append_assoc, List.take_append_drop, horder]
  · simp only [State.count, List.length_append, List.length_take, List.sum_append, List.sum_cons,
      List.sum_nil]
    omega

/-- As many events wait as `_total` has. -/
theorem Counted.waiting {s : State ε} (h : Counted s) : s.waiting.length = s.binding.total := by
  have hsum := h.sum
  have hlength := h.length
  rw [← h.order, List.length_append] at hsum
  omega

theorem counted_step (c : Script) (s : State ε) (op : Op ε) (h : Counted s) :
    Counted (step c s op) := by
  have hwaiting := h.waiting
  have hsum := h.sum
  cases op with
  | write e filter write =>
    have htotal := Binding.write_total c s.binding filter write
    refine counted_count ?_ ?_ ?_ h.length
    · simp only [List.length_append, List.length_cons, List.length_nil]
      omega
    · simp only [List.length_append, List.length_cons, List.length_nil]
      omega
    · show s.acknowledged ++ (s.waiting ++ [e]) = s.written ++ [e]
      rw [← List.append_assoc, h.order]
  | flush flush =>
    have htotal := Binding.flush_total c s.binding flush
    refine counted_count ?_ ?_ h.order h.length
    · omega
    · omega

theorem good_step (c : Script) (s : State ε) (op : Op ε) (h : Good s) :
    Good (step c s op) ↔ c.Fine op := by
  have hheight : (step c s op).binding.height = 0 ↔ c.Fine op := by
    cases op with
    | write e filter write => exact Binding.write_height c s.binding e filter write
    | flush flush => exact Binding.flush_height c h.empty flush
  rw [← hheight]
  exact ⟨fun hgood => hgood.empty, fun hempty => ⟨hempty, counted_step c s op h.counted⟩⟩

theorem good_new : Good (State.new : State ε) := ⟨rfl, rfl, rfl, rfl⟩

/-- The stack is empty throughout, and the events are counted, exactly when each function that is
called returns a boolean. -/
theorem good_iff_fine (c : Script) (ops : List (Op ε)) :
    Throughout (step c) Good .new ops ↔ ∀ op ∈ ops, c.Fine op := by
  rw [throughout_iff_eachStep (good_step c) good_new, eachStep_const]

/-- A function `write` that raises an error leaves it on the stack. -/
theorem not_good : ¬ ∀ (c : Script) (ops : List (Op ℕ)), Throughout (step c) Good .new ops := by
  intro h
  have hgood := (h ⟨false, false⟩ [.write 0 .error .error]).last
  exact absurd hgood.empty (by decide)

end CentreonBroker.Lua
