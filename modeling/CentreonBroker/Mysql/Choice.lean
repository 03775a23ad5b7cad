import CentreonBroker.Lib.Runs
import Mathlib.Data.List.Chain
import Mathlib.Data.List.TakeWhile
import Mathlib.Data.Nat.Notation

/-!
# The choice of a connection

A `mysql` object has several connections. `choose_best_connection` goes around them once and takes
one that has the fewest tasks, unless it was asked for the same type right before. What it remembers
of that is in variables of the function, which all objects share.
-/

namespace CentreonBroker.Mysql.Choice

/-- A `mysql` object. -/
structure Object where
  /-- The size of `_connection`. -/
  count : ℕ
  /-- `_current_connection`. -/
  current : ℕ
  alive : Bool

/-- A call that was made, with the index that it returned. -/
structure Call where
  object : ℕ
  type : ℤ
  result : ℕ

structure State where
  lastType : ℤ
  previousRetval : ℕ
  /-- All objects there have been. -/
  objects : List Object
  /-- The calls, the last one first. -/
  history : List Call

def State.new : State := ⟨-1, 0, [], []⟩

/-- `std::numeric_limits<int>::max()`. -/
def maxInt : ℤ := 2147483647

/-- The connection behind one, around the end. -/
def next (count current : ℕ) : ℕ := if count ≤ current + 1 then 0 else current + 1

/-- The loop of `choose_best_connection`, with the turns that are left. It gives the connection that
it stops at, and the best one. A number of tasks is read twice, and may change in between. -/
def search (count : ℕ) (tasks : ℕ → ℤ × ℤ) : ℕ → ℕ → ℕ → ℤ → ℕ × ℕ
  | 0, current, retval, _ => (current, retval)
  | left + 1, current, retval, taskCount =>
    let current := next count current
    if (tasks current).1 < taskCount then search count tasks left current current (tasks current).2
    else search count tasks left current retval taskCount

/-- `choose_best_connection`: the connection that the object is at afterwards, and the result. -/
def choose_best_connection (s : State) (o : Object) (type : ℤ) (tasks : ℕ → ℤ × ℤ) : ℕ × ℕ :=
  if 0 ≤ type ∧ s.lastType = type then (o.current, s.previousRetval)
  else search o.count tasks o.count o.current o.current maxInt

inductive Op where
  | create (count : ℕ) (hcount : 0 < count)
  | destroy (object : ℕ)
  | call (object : ℕ) (type : ℤ) (tasks : ℕ → ℤ × ℤ)

/-- The object, if it is there. -/
def State.object? (s : State) (object : ℕ) : Option Object := s.objects[object]?.filter (·.alive)

def step (s : State) : Op → State
  | .create count _ => { s with objects := s.objects ++ [⟨count, 0, true⟩] }
  | .destroy object => { s with objects := s.objects.modify object ({ · with alive := false }) }
  | .call object type tasks =>
    match s.object? object with
    | none => s
    | some o =>
      let (current, retval) := choose_best_connection s o type tasks
      { lastType := type
        previousRetval := retval
        objects := s.objects.set object { o with current := current }
        history := ⟨object, type, retval⟩ :: s.history }

/-! ## What is asked -/

/-- The index is in range, and it is that of the last call of the object when that one was for the
same type. -/
def Right (s : State) : Op → Prop
  | .call object type tasks => ∀ o ∈ s.object? object,
    let retval := (choose_best_connection s o type tasks).2
    retval < o.count ∧ ∀ c ∈ s.history.find? (·.object = object), 0 ≤ type → c.type = type →
      retval = c.result
  | _ => True

/-- When the last call of all was for the same type, its index is in range here, and since the last
call of the object, if that one was for the same type, all calls were for it. -/
def Sound (s : State) : Op → Prop
  | .call object type _ => 0 ≤ type → ∀ o ∈ s.object? object,
    (∀ c ∈ s.history.head?, c.type = type → c.result < o.count) ∧
    ∀ c ∈ s.history.find? (·.object = object), c.type = type →
      ∀ c' ∈ s.history.takeWhile (·.object ≠ object), c'.type = type
  | _ => True

/-! ## The loop -/

theorem next_lt {count current : ℕ} (h : current < count) : next count current < count := by
  unfold next
  split <;> omega

theorem search_lt {count : ℕ} {tasks : ℕ → ℤ × ℤ} {left current retval : ℕ} {taskCount : ℤ}
    (hcurrent : current < count) (hretval : retval < count) :
    (search count tasks left current retval taskCount).1 < count ∧
      (search count tasks left current retval taskCount).2 < count := by
  induction left generalizing current retval taskCount with
  | zero => exact ⟨hcurrent, hretval⟩
  | succ left ih =>
    have hnext := next_lt hcurrent
    rw [search]
    split
    · exact ih hnext hnext
    · exact ih hnext hretval

/-! ## What the function remembers -/

/-- A call for the same type as the one before returns the same index. -/
def Same (c d : Call) : Prop := 0 ≤ c.type → c.type = d.type → c.result = d.result

structure Inv (s : State) : Prop where
  current : ∀ o ∈ s.objects, o.current < o.count
  unset : s.history = [] → s.lastType = -1
  last : ∀ c ∈ s.history.head?, s.lastType = c.type ∧ s.previousRetval = c.result
  same : List.IsChain Same s.history

theorem inv_new : Inv .new := ⟨nofun, fun _ => rfl, nofun, .nil⟩

theorem object?_mem {s : State} {object : ℕ} {o : Object} (h : s.object? object = some o) :
    o ∈ s.objects :=
  List.mem_of_getElem? (Option.eq_some_of_filter_eq_some h)

/-- The function is where it was, or the loop was run from there. -/
theorem choose_current_lt {s : State} {o : Object} (h : o.current < o.count) (type : ℤ)
    (tasks : ℕ → ℤ × ℤ) : (choose_best_connection s o type tasks).1 < o.count := by
  unfold choose_best_connection
  split
  · exact h
  · exact (search_lt h h).1

theorem inv_step (s : State) (op : Op) (h : Inv s) : Inv (step s op) := by
  cases op with
  | create count hcount =>
    refine ⟨?_, h.unset, h.last, h.same⟩
    intro o ho
    rcases List.mem_append.mp ho with hold | hnew
    · exact h.current o hold
    · rw [List.mem_singleton.mp hnew]
      exact hcount
  | destroy object =>
    refine ⟨?_, h.unset, h.last, h.same⟩
    intro o ho
    obtain ⟨i, hi⟩ := List.mem_iff_getElem?.mp ho
    rw [show (step s (.destroy object)).objects =
      s.objects.modify object ({ · with alive := false }) from rfl, List.getElem?_modify] at hi
    obtain ⟨o', ho', rfl⟩ := Option.map_eq_some_iff.mp hi
    have hlt := h.current o' (List.mem_of_getElem? ho')
    split <;> exact hlt
  | call object type tasks =>
    rw [step]
    split
    · exact h
    · rename_i o ho
      refine ⟨?_, nofun, ?_, ?_⟩
      · intro o' ho'
        rcases List.mem_or_eq_of_mem_set ho' with hold | rfl
        · exact h.current o' hold
        · exact choose_current_lt (h.current o (object?_mem ho)) type tasks
      · rintro c ⟨⟩
        exact ⟨rfl, rfl⟩
      · show List.IsChain Same (_ :: s.history)
        rw [List.isChain_cons]
        refine ⟨?_, h.same⟩
        intro c hc htype heq
        obtain ⟨hlast, hprevious⟩ := h.last c hc
        have hhit : 0 ≤ type ∧ s.lastType = type := ⟨htype, hlast.trans heq.symm⟩
        show (choose_best_connection s o type tasks).2 = c.result
        rw [choose_best_connection, if_pos hhit]
        exact hprevious

/-- All calls back to one for the same type returned what it did. -/
theorem streak {pre post : List Call} {c : Call} (h : List.IsChain Same (pre ++ c :: post))
    (htype : 0 ≤ c.type) (hall : ∀ d ∈ pre, d.type = c.type) :
    ∀ d ∈ (pre ++ c :: post).head?, d.type = c.type ∧ d.result = c.result := by
  induction pre with
  | nil =>
    rintro d ⟨⟩
    exact ⟨rfl, rfl⟩
  | cons d pre ih =>
    rintro d' ⟨⟩
    have hd := hall d List.mem_cons_self
    refine ⟨hd, ?_⟩
    rw [List.cons_append, List.isChain_cons] at h
    obtain ⟨e, he⟩ : ∃ e, (pre ++ c :: post).head? = some e := by
      cases pre <;> exact ⟨_, rfl⟩
    obtain ⟨htype', hresult⟩ := ih h.2 (fun d' hd' => hall d' (List.mem_cons_of_mem d hd')) e he
    rw [← hresult]
    exact h.1 e he (by omega) (by omega)

/-- The last call of the object stands behind the calls of others. -/
theorem history_split {l : List Call} {object : ℕ} {c : Call}
    (h : l.find? (·.object = object) = some c) :
    ∃ post, l = l.takeWhile (·.object ≠ object) ++ c :: post := by
  induction l with
  | nil => cases h
  | cons d l ih =>
    by_cases hd : d.object = object
    · rw [List.find?_cons_of_pos (by simpa using hd)] at h
      cases h
      exact ⟨l, by rw [List.takeWhile_cons_of_neg (by simpa using hd), List.nil_append]⟩
    · rw [List.find?_cons_of_neg (by simpa using hd)] at h
      obtain ⟨post, hpost⟩ := ih h
      refine ⟨post, ?_⟩
      rw [List.takeWhile_cons_of_pos (by simpa using hd), List.cons_append, ← hpost]

/-- A sound call returns the right index. -/
theorem right_of_sound {s : State} {op : Op} (hinv : Inv s) (h : Sound s op) : Right s op := by
  cases op with
  | create | destroy => trivial
  | call object type tasks =>
    intro o ho
    have hlt := hinv.current o (object?_mem ho)
    refine ⟨?_, ?_⟩
    · unfold choose_best_connection
      split
      · rename_i hhit
        obtain ⟨hrange, -⟩ := h hhit.1 o ho
        cases hhistory : s.history with
        | nil =>
          have hunset := hinv.unset hhistory
          omega
        | cons c rest =>
          have hc : c ∈ s.history.head? := by rw [hhistory]; rfl
          obtain ⟨hlast, hprevious⟩ := hinv.last c hc
          rw [hprevious]
          exact hrange c hc (hlast.symm.trans hhit.2)
      · exact (search_lt hlt hlt).2
    · intro c hc hpos htype
      obtain ⟨-, hbetween⟩ := h hpos o ho
      obtain ⟨post, hpost⟩ := history_split hc
      have hchain := hinv.same
      rw [hpost] at hchain
      have hall := hbetween c hc htype
      obtain ⟨d, hd⟩ : ∃ d, s.history.head? = some d := by
        rw [hpost]
        cases s.history.takeWhile (·.object ≠ object) <;> exact ⟨_, rfl⟩
      have hstreak := streak hchain (by omega) (fun d hd => (hall d hd).trans htype.symm) d
        (hpost ▸ hd)
      obtain ⟨hlast, hprevious⟩ := hinv.last d hd
      have hhit : 0 ≤ type ∧ s.lastType = type := ⟨hpos, by omega⟩
      show (choose_best_connection s o type tasks).2 = c.result
      rw [choose_best_connection, if_pos hhit]
      exact hprevious.trans hstreak.2

/-- In a run of sound calls, each index is in range, and the same for one type. -/
theorem right_of_run {ops : List Op} (h : EachStep step Sound .new ops) :
    EachStep step Right .new ops :=
  h.mono (fun s op hinv hsound => ⟨right_of_sound hinv hsound, inv_step s op hinv⟩) inv_new

/-- All connections have as many tasks. -/
def even : ℕ → ℤ × ℤ := fun _ => (0, 0)

/-- Two objects, the calls of which come in turn. -/
theorem right_of_run_two :
    EachStep step Right .new [.create 2 (by decide), .create 3 (by decide), .call 0 3 even,
      .call 1 3 even, .call 0 3 even, .call 1 5 even] := by
  refine right_of_run ⟨trivial, trivial, ?_, ?_, ?_, ?_, trivial⟩
  all_goals
    intro _ o ho
    cases ho
    decide

/-- Another object, with one connection, is given the index of an object with three. -/
theorem not_right : ¬ ∀ ops, EachStep step Right .new ops := by
  intro h
  obtain ⟨-, -, -, hcall, -⟩ :=
    h [.create 3 (by decide), .create 1 (by decide), .call 0 5 even, .call 1 5 even]
  have hlt := (hcall ⟨1, 0, true⟩ rfl).1
  exact absurd hlt (by decide)

end CentreonBroker.Mysql.Choice
