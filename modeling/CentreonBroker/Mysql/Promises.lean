import CentreonBroker.Lib.Runs
import CentreonBroker.Mysql.Connection
import Mathlib.Algebra.Order.Group.Nat
import Mathlib.Logic.Function.Iterate

/-!
# Promises for results

A task may have a promise for its result. The thread of a connection takes the whole list of tasks
at once and executes what it took; it leaves when one of them was the task to finish. A promise that
is settled a second time throws in the thread.

The check of `_push` and its critical section are two steps.
-/

namespace CentreonBroker.Mysql.Promises

/-- `mysql_task`. `bind` tells if there are values to bind. -/
inductive Task where
  | run
  | runRes
  | runInt
  | commit
  | prepare (id : ℕ)
  | statement (id : ℕ) (bind : Bool)
  | statementRes (id : ℕ) (bind : Bool)
  | statementInt (id : ℕ) (bind : Bool)
  | fetchRow
  | finish
  deriving DecidableEq, Repr

/-- Does the task have a promise? -/
def Task.hasPromise : Task → Bool
  | run | prepare _ | statement _ _ | finish => false
  | runRes | runInt | commit | statementRes _ _ | statementInt _ _ | fetchRow => true

/-- `set_value` and `set_exception`. -/
inductive Call where
  | value
  | exception
  deriving DecidableEq, Repr

/-- What `mysql_stmt_result_metadata` gives. -/
inductive Metadata where
  | fields
  /-- A null pointer, and the error number: a statement without a result has none. -/
  | null (errno : Outcome)
  deriving DecidableEq, Repr

/-- What the calls of a task are answered. -/
structure Answers where
  query : Outcome
  prepare : Outcome
  bindParam : Outcome
  /-- The attempts to execute a statement, by their number. -/
  execute : ℕ → Outcome
  metadata : Metadata
  bindResult : Outcome
  storeResult : Outcome
  /-- `count` of a commit, as this task finds it. Other connections share it. -/
  count : ℤ

/-- The loop around `mysql_stmt_execute`, with the attempts that are left. An error that is no lock
leaves no other one. -/
def attempt (execute : ℕ → Outcome) (success : List Call) (attempts : ℕ) : ℕ → List Call
  | 0 => [.exception]
  | left + 1 =>
    match execute attempts with
    | .ok => success
    | .gone => [.exception]
    | .other => [.exception]
    | .deadlock | .lockTimeout => attempt execute success (attempts + 1) left

/-- The calls on the promise once a statement for a result is executed. -/
def resultCalls (a : Answers) : List Call :=
  match a.metadata with
  | .null errno => if errno = .ok then [.value] else [.exception]
  | .fields =>
    let calls := if a.bindResult ≠ .ok then [.exception]
      else if a.storeResult ≠ .ok then [.exception] else []
    -- the branches meet in front of this call
    calls ++ [.value]

/-- `_statement_res` and `_statement_int`, which differ in what follows the execution. -/
def statementCalls (prepared : ℕ → Bool) (a : Answers) (id : ℕ) (bind : Bool)
    (success : List Call) : List Call :=
  if ¬ prepared id then [.exception]
  else if bind ∧ a.bindParam ≠ .ok then [.exception]
  else attempt a.execute success 0 maxAttempts

/-- The calls on the promise of a task. -/
def calls (prepared : ℕ → Bool) (a : Answers) : Task → List Call
  | .run | .prepare _ | .statement _ _ | .finish => []
  | .runRes | .runInt => if a.query = .ok then [.value] else [.exception]
  -- the last of the commits that share the count, whatever became of the commit
  | .commit => if a.count - 1 = 0 then [.value] else []
  | .statementRes id bind => statementCalls prepared a id bind (resultCalls a)
  | .statementInt id bind => statementCalls prepared a id bind [.value]
  | .fetchRow => [.value]

/-- What the callers and the thread share, and what the thread has for itself. -/
structure State where
  finished : Bool
  tasks_list : List Task
  /-- The list that the thread took. -/
  taken : List Task
  /-- The thread has left its loop. -/
  ended : Bool
  /-- A promise threw in the thread. -/
  crashed : Bool
  /-- The statements that `_stmt` has. -/
  prepared : ℕ → Bool
  /-- What callers are about to append, behind the check. -/
  passed : List Task
  /-- All that was appended. -/
  accepted : List Task
  /-- The tasks that the thread came to, with the calls on their promises. -/
  executed : List (Task × List Call)

namespace State

def new : State := ⟨false, [], [], false, false, fun _ => false, [], [], []⟩

/-- The check of `_push`. A caller that does not pass gets an exception. -/
def check (s : State) (t : Task) : State :=
  if s.finished then s else { s with passed := s.passed ++ [t] }

/-- The critical section of `_push`. -/
def append (s : State) (i : ℕ) : State :=
  match s.passed[i]? with
  | none => s
  | some t =>
    { s with
      passed := s.passed.eraseIdx i
      tasks_list := s.tasks_list ++ [t]
      accepted := s.accepted ++ [t] }

/-- A task is executed. -/
def exec (s : State) (a : Answers) (t : Task) (rest : List Task) : State :=
  { s with
    taken := rest
    executed := s.executed ++ [(t, calls s.prepared a t)]
    crashed := 1 < (calls s.prepared a t).length
    finished := s.finished || t = .finish
    prepared := match t with
      | .prepare id => fun i => s.prepared i || (i = id && a.prepare = .ok)
      | _ => s.prepared }

/-- What the thread does next: it executes a task, or it takes the list, waits or leaves. -/
def turn (a : Answers) (s : State) : State :=
  if s.crashed ∨ s.ended then s
  else
    match s.taken with
    | t :: rest => s.exec a t rest
    | [] =>
      if s.finished then { s with ended := true }
      else { s with taken := s.tasks_list, tasks_list := [] }

end State

inductive Op where
  | check (t : Task)
  | append (i : ℕ)
  | turn (a : Answers)

def step (s : State) : Op → State
  | .check t => s.check t
  | .append i => s.append i
  | .turn a => s.turn a

/-! ## What is asked -/

/-- Answers without a failure. -/
def quiet : Answers := ⟨.ok, .ok, .ok, fun _ => .ok, .null .ok, .ok, .ok, 1⟩

/-- Each task that the thread came to settled its promise once, and the thread, left to itself,
comes to each task that was accepted. -/
structure Good (s : State) : Prop where
  once : ∀ e ∈ s.executed, e.1.hasPromise → e.2.length = 1
  served : ∀ i < s.accepted.length, ∃ n, i < ((State.turn quiet)^[n] s).executed.length

/-- `mysql_stmt_execute` succeeds at last, with locks before. -/
def Executes (execute : ℕ → Outcome) (attempts : ℕ) : Prop :=
  ∃ n, attempts ≤ n ∧ n < maxAttempts ∧ execute n = .ok ∧
    ∀ i, attempts ≤ i → i < n → execute i = .deadlock ∨ execute i = .lockTimeout

/-- The answers for which the promise is settled once. -/
def Fits (prepared : ℕ → Bool) (a : Answers) : Task → Prop
  | .statementRes id bind =>
    prepared id → (bind → a.bindParam = .ok) → Executes a.execute 0 → a.metadata = .fields →
      a.bindResult = .ok ∧ a.storeResult = .ok
  | .commit => a.count = 1
  | _ => True

/-- The thread will not take the list again. -/
def State.Leaving (s : State) : Prop := s.finished ∨ .finish ∈ s.taken

/-- Nothing is appended once the thread took the task to finish, no result is refused by the client
library, and a commit is the last one that has its promise. -/
def Sound (s : State) : Op → Prop
  | .check _ => True
  | .append i => s.passed[i]? ≠ none → ¬ s.Leaving
  | .turn a => ¬ s.crashed → ¬ s.ended → ∀ t ∈ s.taken.head?, Fits s.prepared a t

/-! ## The calls on a promise -/

variable {execute : ℕ → Outcome} {attempts : ℕ}

theorem executes_iff (h : attempts < maxAttempts) :
    Executes execute attempts ↔ execute attempts = .ok ∨
      (execute attempts = .deadlock ∨ execute attempts = .lockTimeout) ∧
        Executes execute (attempts + 1) := by
  constructor
  · rintro ⟨n, hle, hlt, hok, hlock⟩
    rcases Nat.lt_or_eq_of_le hle with hn | rfl
    · refine .inr ⟨hlock attempts (Nat.le_refl _) hn, n, hn, hlt, hok, ?_⟩
      intro i hi
      exact hlock i (by omega)
    · exact .inl hok
  · rintro (hok | ⟨hlock, n, hle, hlt, hok, hrest⟩)
    · exact ⟨attempts, Nat.le_refl _, h, hok, fun i hle hlt => absurd hle (by omega)⟩
    · refine ⟨n, by omega, hlt, hok, ?_⟩
      intro i hi hin
      rcases Nat.lt_or_eq_of_le hi with hlt | rfl
      · exact hrest i hlt hin
      · exact hlock

theorem not_executes (h : maxAttempts ≤ attempts) :
    ¬ Executes execute attempts := by
  rintro ⟨n, hle, hlt, -⟩
  omega

/-- The loop comes to the success of the statement, or to one exception. -/
theorem attempt_cases {success : List Call} {left : ℕ}
    (h : attempts + left = maxAttempts) :
    Executes execute attempts ∧ attempt execute success attempts left = success ∨
      ¬ Executes execute attempts ∧ attempt execute success attempts left = [.exception] := by
  induction left generalizing attempts with
  | zero => exact .inr ⟨not_executes (by omega), rfl⟩
  | succ left ih =>
    have hmore := @ih (attempts + 1) (by omega)
    rw [executes_iff (by omega), attempt]
    cases execute attempts with
    | ok => exact .inl ⟨.inl rfl, rfl⟩
    | gone => exact .inr ⟨by simp, rfl⟩
    | other => exact .inr ⟨by simp, rfl⟩
    | deadlock => simpa using hmore
    | lockTimeout => simpa using hmore

theorem length_resultCalls (a : Answers) :
    (resultCalls a).length = 1 ↔
      (a.metadata = .fields → a.bindResult = .ok ∧ a.storeResult = .ok) := by
  unfold resultCalls
  cases a.metadata with
  | null errno => by_cases h : errno = .ok <;> simp [h]
  | fields =>
    by_cases hbind : a.bindResult = .ok <;> by_cases hstore : a.storeResult = .ok <;>
      simp [hbind, hstore]

/-- The promise of a statement is settled once on the ways that do not come to its result. -/
theorem length_statementCalls (prepared : ℕ → Bool) (a : Answers) (id : ℕ) (bind : Bool)
    (success : List Call) :
    (statementCalls prepared a id bind success).length = 1 ↔
      (prepared id → (bind → a.bindParam = .ok) → Executes a.execute 0 → success.length = 1) := by
  unfold statementCalls
  by_cases hprepared : prepared id
  · rw [if_neg (by simpa using hprepared)]
    by_cases hbind : bind ∧ a.bindParam ≠ .ok
    · rw [if_pos hbind]
      simp [hbind.1, hbind.2]
    · rw [if_neg hbind]
      have hparam : bind → a.bindParam = .ok := by
        intro hb
        exact Decidable.not_not.mp fun hne => hbind ⟨hb, hne⟩
      have hcases : Executes a.execute 0 ∧ attempt a.execute success 0 maxAttempts = success ∨
          ¬ Executes a.execute 0 ∧ attempt a.execute success 0 maxAttempts = [.exception] :=
        attempt_cases (Nat.zero_add maxAttempts)
      rcases hcases with ⟨hexec, heq⟩ | ⟨hexec, heq⟩
      · rw [heq]
        exact ⟨fun h _ _ _ => h, fun h => h hprepared hparam hexec⟩
      · rw [heq]
        exact ⟨fun _ _ _ h => absurd h hexec, fun _ => rfl⟩
  · rw [if_pos hprepared]
    exact ⟨fun _ h => absurd h hprepared, fun _ => rfl⟩

theorem length_calls {t : Task} (ht : t.hasPromise = true) (prepared : ℕ → Bool) (a : Answers) :
    (calls prepared a t).length = 1 ↔ Fits prepared a t := by
  cases t with
  | run | prepare | statement | finish => cases ht
  | runRes | runInt =>
    refine ⟨fun _ => trivial, fun _ => ?_⟩
    show (if a.query = .ok then [Call.value] else [.exception]).length = 1
    split <;> rfl
  | commit =>
    have hcount : a.count - 1 = 0 ↔ a.count = 1 := by omega
    simp only [calls, Fits, hcount]
    split <;> simp [*]
  | statementRes id bind =>
    rw [calls, length_statementCalls, length_resultCalls]
    rfl
  | statementInt id bind =>
    rw [calls, length_statementCalls]
    exact ⟨fun _ => trivial, fun _ _ _ _ => rfl⟩
  | fetchRow => exact ⟨fun _ => trivial, fun _ => rfl⟩

theorem calls_of_not_hasPromise {t : Task} (ht : t.hasPromise = false) (prepared : ℕ → Bool)
    (a : Answers) : calls prepared a t = [] := by
  cases t <;> first | rfl | cases ht

theorem fits_quiet (prepared : ℕ → Bool) (t : Task) : Fits prepared quiet t := by
  cases t with
  | commit => rfl
  | statementRes => exact fun _ _ _ _ => ⟨rfl, rfl⟩
  | _ => trivial

/-! ## The turns of the thread -/

namespace State

theorem turn_of_stopped {s : State} (h : s.crashed = true ∨ s.ended = true) (a : Answers) :
    s.turn a = s := if_pos h

section

variable {s : State} (hcrashed : s.crashed = false) (hended : s.ended = false) (a : Answers)

include hcrashed hended

theorem turn_exec {t : Task} {rest : List Task} (h : s.taken = t :: rest) :
    s.turn a = s.exec a t rest := by
  rw [turn, if_neg (by simp [hcrashed, hended]), h]

theorem turn_leave (h : s.taken = []) (hfinished : s.finished = true) :
    s.turn a = { s with ended := true } := by
  rw [turn, if_neg (by simp [hcrashed, hended]), h]
  exact if_pos hfinished

theorem turn_take (h : s.taken = []) (hfinished : s.finished = false) :
    s.turn a = { s with taken := s.tasks_list, tasks_list := [] } := by
  rw [turn, if_neg (by simp [hcrashed, hended]), h]
  exact if_neg (by simp [hfinished])

end

/-- Whether the thread leaves is known when it takes the list. -/
theorem leaving_exec {s : State} {a : Answers} {t : Task} {rest : List Task}
    (h : s.taken = t :: rest) : (s.exec a t rest).Leaving ↔ s.Leaving := by
  unfold Leaving exec
  rw [h]
  simp only [Bool.or_eq_true, decide_eq_true_eq, List.mem_cons]
  constructor
  · rintro ((hf | rfl) | hm)
    · exact .inl hf
    · exact .inr (.inl rfl)
    · exact .inr (.inr hm)
  · rintro (hf | rfl | hm)
    · exact .inl (.inl hf)
    · exact .inl (.inr rfl)
    · exact .inr hm

/-- A thread that leaves comes to what it has taken, and to nothing else. -/
theorem leaving_turn {s : State} (h : s.Leaving) (a : Answers) :
    (s.turn a).Leaving ∧
      (s.turn a).executed.length + (s.turn a).taken.length =
        s.executed.length + s.taken.length := by
  by_cases hstop : s.crashed = true ∨ s.ended = true
  · rw [turn_of_stopped hstop]
    exact ⟨h, rfl⟩
  · simp only [not_or, Bool.not_eq_true] at hstop
    cases htaken : s.taken with
    | cons t rest =>
      rw [turn_exec hstop.1 hstop.2 a htaken]
      refine ⟨(leaving_exec htaken).mpr h, ?_⟩
      simp only [exec, List.length_append, List.length_cons, List.length_nil]
      omega
    | nil =>
      have hfinished : s.finished = true := by
        rcases h with hf | hm
        · exact hf
        · rw [htaken] at hm
          cases hm
      rw [turn_leave hstop.1 hstop.2 a htaken hfinished]
      exact ⟨h, by rw [htaken]⟩

theorem leaving_iterate {s : State} (h : s.Leaving) (a : Answers) (n : ℕ) :
    ((turn a)^[n] s).executed.length ≤ s.executed.length + s.taken.length := by
  have hinv : ((turn a)^[n] s).Leaving ∧ ((turn a)^[n] s).executed.length +
      ((turn a)^[n] s).taken.length = s.executed.length + s.taken.length := by
    induction n with
    | zero => exact ⟨h, rfl⟩
    | succ n ih =>
      rw [Function.iterate_succ_apply']
      obtain ⟨hleaving, hlength⟩ := leaving_turn ih.1 a
      exact ⟨hleaving, hlength.trans ih.2⟩
  omega

/-- The thread goes on. -/
structure Running (s : State) : Prop where
  crashed : s.crashed = false
  ended : s.ended = false

/-- Left to itself, the thread executes what it has taken. -/
theorem iterate_taken {s : State} (h : s.Running) :
    ∃ s', (turn quiet)^[s.taken.length] s = s' ∧ s'.Running ∧ s'.taken = [] ∧
      s'.tasks_list = s.tasks_list ∧ s'.executed.length = s.executed.length + s.taken.length ∧
      (s'.finished = true ↔ s.Leaving) := by
  generalize htaken : s.taken = l
  induction l generalizing s with
  | nil =>
    refine ⟨s, rfl, h, htaken, rfl, rfl, ?_⟩
    simp [Leaving, htaken]
  | cons t rest ih =>
    have hturn : s.turn quiet = s.exec quiet t rest := turn_exec h.crashed h.ended _ htaken
    have hone : ¬ 1 < (calls s.prepared quiet t).length := by
      cases ht : t.hasPromise with
      | true => rw [(length_calls ht _ _).mpr (fits_quiet _ t)]; omega
      | false => rw [calls_of_not_hasPromise ht]; simp
    obtain ⟨s', hs', hrunning, hnil, hlist, hlength, hfinished⟩ :=
      ih (s := s.exec quiet t rest) ⟨by simp [exec, hone], h.ended⟩ rfl
    refine ⟨s', ?_, hrunning, hnil, hlist, ?_, hfinished.trans (leaving_exec htaken)⟩
    · rw [List.length_cons, Function.iterate_succ_apply, hturn, hs']
    · rw [hlength]
      simp only [exec, List.length_append, List.length_cons, List.length_nil]
      omega

end State

/-- What holds in every run. -/
structure Inv (s : State) : Prop where
  /-- The tasks are executed in the order in which they were accepted. -/
  order : s.executed.map Prod.fst ++ s.taken ++ s.tasks_list = s.accepted
  crashed : s.crashed = true → ∃ e ∈ s.executed, e.1.hasPromise ∧ e.2.length ≠ 1
  ended : s.ended = true → s.taken = [] ∧ s.finished = true

theorem inv_new : Inv .new := ⟨rfl, nofun, nofun⟩

theorem inv_step (s : State) (op : Op) (h : Inv s) : Inv (step s op) := by
  cases op with
  | check t =>
    show Inv (s.check t)
    unfold State.check
    split
    · exact h
    · exact ⟨h.order, h.crashed, h.ended⟩
  | append i =>
    show Inv (s.append i)
    unfold State.append
    split
    · exact h
    · rename_i t _
      refine ⟨?_, h.crashed, h.ended⟩
      show s.executed.map Prod.fst ++ s.taken ++ (s.tasks_list ++ [t]) = s.accepted ++ [t]
      rw [← List.append_assoc, h.order]
  | turn a =>
    show Inv (s.turn a)
    by_cases hstop : s.crashed = true ∨ s.ended = true
    · rw [State.turn_of_stopped hstop]
      exact h
    simp only [not_or, Bool.not_eq_true] at hstop
    cases htaken : s.taken with
    | cons t rest =>
      rw [State.turn_exec hstop.1 hstop.2 a htaken]
      refine ⟨?_, ?_, ?_⟩
      · have horder := h.order
        rw [htaken] at horder
        show (s.executed ++ [(t, calls s.prepared a t)]).map Prod.fst ++ rest ++ s.tasks_list =
          s.accepted
        rw [← horder]
        simp
      · intro hcrash
        have hmany : 1 < (calls s.prepared a t).length := by simpa [State.exec] using hcrash
        refine ⟨(t, calls s.prepared a t), by simp [State.exec], ?_, by simp only; omega⟩
        cases ht : t.hasPromise with
        | true => rfl
        | false =>
          rw [calls_of_not_hasPromise ht] at hmany
          cases hmany
      · intro hended
        exact absurd (hstop.2.symm.trans hended) (by decide)
    | nil =>
      cases hfinished : s.finished with
      | true =>
        rw [State.turn_leave hstop.1 hstop.2 a htaken hfinished]
        exact ⟨h.order, h.crashed, fun _ => ⟨htaken, hfinished⟩⟩
      | false =>
        rw [State.turn_take hstop.1 hstop.2 a htaken hfinished]
        refine ⟨?_, h.crashed, ?_⟩
        · have horder := h.order
          rw [htaken] at horder
          rw [← horder]
          simp
        · intro hended
          exact absurd (hstop.2.symm.trans hended) (by decide)

theorem Inv.length {s : State} (h : Inv s) :
    s.accepted.length = s.executed.length + s.taken.length + s.tasks_list.length := by
  rw [← h.order]
  simp only [List.length_append, List.length_map]

/-- As long as the thread runs, it comes to all tasks unless some wait that it will not take. -/
theorem served_iff {s : State} (h : Inv s) (hcrashed : s.crashed = false) :
    (∀ i < s.accepted.length, ∃ n, i < ((State.turn quiet)^[n] s).executed.length) ↔
      (s.Leaving → s.tasks_list = []) := by
  have hlength := h.length
  constructor
  · intro hserved hleaving
    by_contra hne
    have hpos := List.length_pos_of_ne_nil hne
    obtain ⟨n, hn⟩ := hserved (s.executed.length + s.taken.length) (by omega)
    have hle := State.leaving_iterate hleaving quiet n
    omega
  · intro hlist i hi
    by_cases hended : s.ended = true
    · obtain ⟨htaken, hfinished⟩ := h.ended hended
      rw [htaken, hlist (.inl hfinished)] at hlength
      exact ⟨0, by simpa [hlength] using hi⟩
    have hrunning : s.Running := ⟨hcrashed, by simpa using hended⟩
    obtain ⟨s', hs', hrunning', hnil, htasks, hexecuted, hfinished⟩ :=
      State.iterate_taken hrunning
    by_cases hleaving : s.Leaving
    · rw [hlist hleaving, List.length_nil] at hlength
      exact ⟨s.taken.length, by rw [hs']; omega⟩
    · -- the thread takes the list, and comes to its end
      have hgoes : s'.finished = false := by
        rw [← Bool.not_eq_true, hfinished]
        exact hleaving
      have htake := State.turn_take hrunning'.crashed hrunning'.ended quiet hnil hgoes
      obtain ⟨s'', hs'', -, -, -, hexecuted', -⟩ := State.iterate_taken
        (s := { s' with taken := s'.tasks_list, tasks_list := [] })
        ⟨hrunning'.crashed, hrunning'.ended⟩
      refine ⟨s'.tasks_list.length + (1 + s.taken.length), ?_⟩
      rw [Function.iterate_add_apply, Function.iterate_add_apply, hs', Function.iterate_one, htake,
        hs'', hexecuted', hexecuted]
      simp only [htasks]
      omega

theorem Good.crashed {s : State} (h : Good s) (hinv : Inv s) : s.crashed = false := by
  rw [← Bool.not_eq_true]
  intro hcrash
  obtain ⟨e, he, hpromise, hne⟩ := hinv.crashed hcrash
  exact hne (h.once e he hpromise)

/-- Until a promise is settled wrongly, what is asked says that no task waits in vain. -/
theorem good_iff {s : State} (h : Inv s) (hcrashed : s.crashed = false) :
    Good s ↔ (∀ e ∈ s.executed, e.1.hasPromise → e.2.length = 1) ∧
      (s.Leaving → s.tasks_list = []) := by
  rw [← served_iff h hcrashed]
  exact ⟨fun hgood => ⟨hgood.once, hgood.served⟩, fun hgood => ⟨hgood.1, hgood.2⟩⟩

/-- A step keeps what is asked exactly when it is sound. -/
theorem good_step (s : State) (op : Op) (hinv : Inv s) (hgood : Good s) :
    Good (step s op) ↔ Sound s op := by
  have hinv' := inv_step s op hinv
  have hcrashed := hgood.crashed hinv
  obtain ⟨honce, hlist⟩ := (good_iff hinv hcrashed).mp hgood
  cases op with
  | check t =>
    refine iff_of_true ?_ trivial
    have hcheck : (s.check t).crashed = s.crashed ∧ (s.check t).executed = s.executed ∧
        (s.check t).tasks_list = s.tasks_list ∧ ((s.check t).Leaving ↔ s.Leaving) := by
      unfold State.check
      split <;> exact ⟨rfl, rfl, rfl, Iff.rfl⟩
    obtain ⟨hc, he, hl, hleaving⟩ := hcheck
    refine (good_iff hinv' (hc.trans hcrashed)).mpr ⟨?_, ?_⟩
    · show ∀ e ∈ (s.check t).executed, _
      rwa [he]
    · show (s.check t).Leaving → (s.check t).tasks_list = []
      rwa [hl, hleaving]
  | append i =>
    show Good (s.append i) ↔ (s.passed[i]? ≠ none → ¬ s.Leaving)
    cases ht : s.passed[i]? with
    | none =>
      have happend : s.append i = s := by rw [State.append, ht]
      rw [happend]
      exact iff_of_true hgood fun h => absurd rfl h
    | some t =>
      have happend : s.append i = { s with
          passed := s.passed.eraseIdx i
          tasks_list := s.tasks_list ++ [t]
          accepted := s.accepted ++ [t] } := by
        rw [State.append, ht]
      have hnew : Inv (s.append i) := hinv'
      rw [happend] at hnew
      rw [happend, good_iff hnew hcrashed]
      show (∀ e ∈ s.executed, _) ∧ (s.Leaving → s.tasks_list ++ [t] = []) ↔ _
      rw [and_iff_right honce]
      simp
  | turn a =>
    show Good (s.turn a) ↔ (¬ s.crashed → ¬ s.ended → ∀ t ∈ s.taken.head?, Fits s.prepared a t)
    cases hended : s.ended with
    | true =>
      rw [State.turn_of_stopped (.inr hended)]
      exact iff_of_true hgood fun _ h => absurd rfl h
    | false =>
      cases htaken : s.taken with
      | nil =>
        refine iff_of_true ?_ fun _ _ t ht => by cases ht
        cases hfinished : s.finished with
        | true =>
          have hturn := State.turn_leave hcrashed hended a htaken hfinished
          have hnew : Inv (s.turn a) := hinv'
          rw [hturn] at hnew
          rw [hturn, good_iff hnew hcrashed]
          exact ⟨honce, hlist⟩
        | false =>
          have hturn := State.turn_take hcrashed hended a htaken hfinished
          have hnew : Inv (s.turn a) := hinv'
          rw [hturn] at hnew
          rw [hturn, good_iff hnew hcrashed]
          exact ⟨honce, fun _ => rfl⟩
      | cons t rest =>
        have hturn := State.turn_exec hcrashed hended a htaken
        have hnew : Inv (s.turn a) := hinv'
        rw [hturn] at hnew
        have hfits : (¬ s.crashed = true → ¬ false = true → ∀ t' ∈ (t :: rest).head?,
            Fits s.prepared a t') ↔ Fits s.prepared a t := by
          simp [hcrashed]
        rw [hturn, hfits]
        constructor
        · intro h
          cases ht : t.hasPromise with
          | true =>
            rw [← length_calls ht]
            exact h.once (t, calls s.prepared a t) (by simp [State.exec]) ht
          | false => cases t <;> trivial
        · intro hfit
          have hone : t.hasPromise → (calls s.prepared a t).length = 1 :=
            fun ht => (length_calls ht _ _).mpr hfit
          have hle : ¬ 1 < (calls s.prepared a t).length := by
            cases ht : t.hasPromise with
            | true => rw [hone ht]; omega
            | false => rw [calls_of_not_hasPromise ht]; simp
          rw [good_iff hnew (by simp [State.exec, hle])]
          refine ⟨?_, ?_⟩
          · intro e he hpromise
            rcases List.mem_append.mp he with hold | hnew
            · exact honce e hold hpromise
            · rw [List.mem_singleton.mp hnew] at hpromise ⊢
              exact hone hpromise
          · rw [State.leaving_exec htaken]
            exact hlist

theorem good_new : Good .new := ⟨nofun, nofun⟩

/-- In every run, each promise is settled once and each task that was accepted is executed, exactly
when each step is sound. -/
theorem settled_iff (ops : List Op) :
    Throughout step Good .new ops ↔ EachStep step Sound .new ops :=
  throughout_iff_eachStep_of_invariant inv_step good_step inv_new good_new ops

/-- The client library refuses the result of a statement: the promise gets the exception, and then a
value. -/
theorem not_settled_once : ¬ ∀ ops, Throughout step Good .new ops := by
  intro h
  have hlast := (h [.check (.prepare 1), .append 0, .check (.statementRes 1 false), .append 0,
    .turn quiet, .turn quiet,
    .turn { quiet with metadata := .fields, bindResult := .other }]).last
  have hcalls := hlast.once (.statementRes 1 false, [.exception, .value]) (by decide) rfl
  cases hcalls

end CentreonBroker.Mysql.Promises
