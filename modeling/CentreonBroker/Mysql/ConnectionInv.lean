import CentreonBroker.Mysql.Connection

/-!
# What one connection keeps

Whatever the server answers, each query that was accepted is executed once, in order, and a
query in an open transaction is never forgotten by the flag that asks for a commit. Whether
a query that went well can be lost depends on the answers.
-/

namespace CentreonBroker.Mysql

/-- The queries of a task. -/
def Task.stmts {Q : Type} : Task Q → List (Stmt Q)
  | .run _ s => [s]
  | .statement _ _ _ s => [s]
  | _ => []

def Task.isCommit {Q : Type} : Task Q → Bool
  | .commit => true
  | _ => false

/-- The query whose calls are being made. -/
def Phase.stmts {Q : Type} : Phase Q → List (Stmt Q)
  | .query _ s => [s]
  | .bind _ s => [s]
  | .execute _ s _ => [s]
  | .retryCommit _ s _ => [s]
  | .store s => [s]
  | _ => []

def Phase.isCommit {Q : Type} : Phase Q → Bool
  | .commit _ => true
  | _ => false

namespace Connection

variable {Q : Type}

/-- A commit was asked for, and `count` did not go down yet. -/
def owes (c : Connection Q) : Bool := c.tasks_list.any Task.isCommit || c.phase.isCommit

/-- No query that went well was rolled back. -/
def Intact (c : Connection Q) : Prop := ∀ en ∈ c.log, en.reported = false → en.fate ≠ .lost

/-- A query that went well is in the open transaction. -/
def Exposed (c : Connection Q) : Prop := ∃ en ∈ c.log, en.fate = .opened ∧ en.reported = false

instance (c : Connection Q) : Decidable c.Intact := inferInstanceAs (Decidable (∀ _ ∈ _, _))

instance (c : Connection Q) : Decidable c.Exposed := inferInstanceAs (Decidable (∃ _ ∈ _, _))

/-- All that the connection accepted was executed, and what is not reported is committed. -/
structure Committed (c : Connection Q) : Prop where
  accepted : c.accepted = c.log.map Entry.stmt
  durable : ∀ en ∈ c.log, en.reported = false → en.fate = .durable

/-- The same for the queries of one event. -/
structure CommittedFor (c : Connection Q) (flag : ℕ) : Prop where
  accepted : c.accepted.filter (fun s => s.flag == flag) =
    (c.log.map Entry.stmt).filter fun s => s.flag == flag
  durable : ∀ en ∈ c.log, en.stmt.flag = flag → en.reported = false → en.fate = .durable

theorem Committed.for {c : Connection Q} (h : c.Committed) (flag : ℕ) : c.CommittedFor flag :=
  ⟨by rw [h.accepted], fun en hen _ => h.durable en hen⟩

/-- Does this answer lose the open transaction, with no error for the connection? -/
def silent (c : Connection Q) (o : Outcome) : Bool :=
  match c.phase with
  | .query r _ => o == .deadlock && !r.fatal
  | .execute _ _ _ => o == .deadlock
  | .retryCommit r _ attempts => o.rollsBack && !(r.fatal && maxAttempts ≤ attempts + 1)
  | .store _ => o == .deadlock
  | .commit attempts => o == .deadlock && attempts + 1 < maxAttempts
  | _ => false

/-- Does this answer to `mysql_commit` leave the open transaction lost, or open for good? -/
def failsCommit (c : Connection Q) (o : Outcome) : Bool :=
  match c.phase with
  | .commit attempts => o.rollsBack || (o != .ok && maxAttempts ≤ attempts + 1)
  | _ => false

/-- What does not depend on the answers. -/
structure Wf (c : Connection Q) : Prop where
  accepted : c.accepted = c.log.map Entry.stmt ++ c.phase.stmts ++ c.tasks_list.flatMap Task.stmts
  needs : ∀ en ∈ c.log, en.fate = .opened → c.need_commit = true
  storing : ∀ s, c.phase = .store s → c.need_commit = true
  /-- The callers wait for the end of a commit: nothing comes behind it. -/
  last : c.tasks_list.dropLast.any Task.isCommit = false
  alone : c.phase.isCommit = true → c.tasks_list = []

theorem wf_new : (new : Connection Q).Wf where
  accepted := rfl
  needs _ h := absurd h List.not_mem_nil
  storing _ h := absurd h nofun
  last := rfl
  alone h := absurd h nofun

theorem intact_new : (new : Connection Q).Intact := fun _ h => absurd h List.not_mem_nil

/-! ### The parts of a call -/

section Parts

variable {c : Connection Q} {s : Stmt Q} {o : Outcome}

@[simp] theorem roll_tasks (o : Outcome) (c : Connection Q) :
    (c.roll o).tasks_list = c.tasks_list := by
  unfold roll
  split <;> rfl

@[simp] theorem roll_phase (o : Outcome) (c : Connection Q) : (c.roll o).phase = c.phase := by
  unfold roll
  split <;> rfl

@[simp] theorem roll_need (o : Outcome) (c : Connection Q) :
    (c.roll o).need_commit = c.need_commit := by
  unfold roll
  split <;> rfl

@[simp] theorem roll_error (o : Outcome) (c : Connection Q) : (c.roll o).error = c.error := by
  unfold roll
  split <;> rfl

@[simp] theorem roll_accepted (o : Outcome) (c : Connection Q) :
    (c.roll o).accepted = c.accepted := by
  unfold roll
  split <;> rfl

@[simp] theorem roll_stmts (o : Outcome) (c : Connection Q) :
    (c.roll o).log.map Entry.stmt = c.log.map Entry.stmt := by
  unfold roll
  split
  · simp [Function.comp_def]
  · rfl

/-- What is still open was open before. -/
theorem opened_of_roll {en : Entry Q} (hen : en ∈ (c.roll o).log) (hopened : en.fate = .opened) :
    en ∈ c.log := by
  unfold roll at hen
  split at hen
  · obtain ⟨en₀, -, rfl⟩ := List.mem_map.mp hen
    exact absurd hopened en₀.rollback_ne_opened
  · exact hen

/-- A transaction that is lost has no query that went well in it. -/
theorem Intact.roll (h : c.Intact) (hsafe : c.Exposed → o.rollsBack = false) :
    (c.roll o).Intact := by
  intro en hen hreported
  unfold Connection.roll at hen
  split at hen
  · rename_i hrolls
    obtain ⟨en₀, hen₀, rfl⟩ := List.mem_map.mp hen
    rw [Entry.rollback_reported] at hreported
    have hopened : en₀.fate ≠ .opened := fun hopened => by
      rw [hsafe ⟨en₀, hen₀, hopened, hreported⟩] at hrolls
      cases hrolls
    unfold Entry.rollback
    rw [if_neg hopened]
    exact h en₀ hen₀ hreported
  · exact h en hen hreported

theorem Intact.commit (h : c.Intact) : Intact { c with log := c.log.map Entry.commit } := by
  intro en hen hreported
  obtain ⟨en₀, hen₀, rfl⟩ := List.mem_map.mp hen
  rw [Entry.commit_reported] at hreported
  exact Entry.commit_ne_lost (h en₀ hen₀ hreported)

theorem Intact.finish (h : c.Intact) {fate : Fate} {reported : Bool} (error : Bool)
    (hentry : reported = false → fate ≠ .lost) : (c.finish s fate reported error).Intact := by
  intro en hen hreported
  rcases List.mem_append.mp hen with hen | hen
  · exact h en hen hreported
  · obtain rfl := List.mem_singleton.mp hen
    exact hentry hreported

/-- With nothing lost, and nothing open, all is committed. -/
theorem Intact.durable (h : c.Intact) (hsafe : ¬ c.Exposed) {en : Entry Q} (hen : en ∈ c.log)
    (hreported : en.reported = false) : en.fate = .durable := by
  cases hfate : en.fate with
  | opened => exact absurd ⟨en, hen, hfate, hreported⟩ hsafe
  | durable => rfl
  | lost => exact absurd hfate (h en hen hreported)

/-- What is open after a rollback was open before, and not rolled back. -/
theorem Exposed.of_roll (h : (c.roll o).Exposed) : c.Exposed := by
  obtain ⟨en, hen, hopened, hreported⟩ := h
  exact ⟨en, opened_of_roll hen hopened, hopened, hreported⟩

theorem not_exposed_commit (c : Connection Q) (need : Bool) (phase : Phase Q) :
    ¬ Exposed { c with log := c.log.map Entry.commit, need_commit := need, phase := phase } := by
  rintro ⟨en, hen, hopened, -⟩
  obtain ⟨en₀, -, rfl⟩ := List.mem_map.mp hen
  exact en₀.commit_ne_opened hopened

theorem Wf.not_exposed (h : c.Wf) (hneed : c.need_commit = false) : ¬ c.Exposed := by
  rintro ⟨en, hen, hopened, -⟩
  rw [h.needs en hen hopened] at hneed
  cases hneed

/-- A connection that has nothing left to do has committed what it did not lose. -/
theorem Wf.committed (h : c.Wf) (htasks : c.tasks_list = []) (hphase : c.phase = .idle)
    (hintact : c.Intact) (hsafe : ¬ c.Exposed) : c.Committed where
  accepted := by
    have haccepted := h.accepted
    rw [htasks, hphase] at haccepted
    simpa [Phase.stmts] using haccepted
  durable _ hen hreported := hintact.durable hsafe hen hreported

end Parts

/-! ### One step of the thread -/

section Steps

variable {c c' : Connection Q} {b : Bool} {o : Outcome}

variable {s : Stmt Q}

/-- The query is at its end. -/
theorem Wf.finish (h : c.Wf) (hstmts : c.phase.stmts = [s]) {fate : Fate}
    (hfate : fate = .opened → c.need_commit = true) (reported error : Bool) :
    (c.finish s fate reported error).Wf where
  accepted := by
    have haccepted := h.accepted
    rw [hstmts] at haccepted
    simpa [Connection.finish, Phase.stmts] using haccepted
  needs en hen hopened := by
    rcases List.mem_append.mp hen with hen | hen
    · exact h.needs en hen hopened
    · obtain rfl := List.mem_singleton.mp hen
      exact hfate hopened
  storing _ hphase := absurd hphase nofun
  last := h.last
  alone hphase := absurd hphase nofun

theorem Wf.lose (h : c.Wf) (hstmts : c.phase.stmts = [s]) (error : Bool) :
    (c.finish s .lost true error).Wf :=
  h.finish hstmts (fun hfate => Fate.noConfusion hfate) true error

theorem Wf.roll (h : c.Wf) (o : Outcome) : (c.roll o).Wf where
  accepted := by
    rw [roll_accepted, roll_stmts, roll_phase, roll_tasks]
    exact h.accepted
  needs en hen hopened := by
    rw [roll_need]
    exact h.needs en (opened_of_roll hen hopened) hopened
  storing s hphase := by
    rw [roll_phase] at hphase
    rw [roll_need]
    exact h.storing s hphase
  last := by
    rw [roll_tasks]
    exact h.last
  alone hphase := by
    rw [roll_phase] at hphase
    rw [roll_tasks]
    exact h.alone hphase

/-- The next call is for the same query. -/
theorem Wf.next (h : c.Wf) {phase : Phase Q} (hstmts : phase.stmts = c.phase.stmts)
    (hcommit : phase.isCommit = c.phase.isCommit)
    (hstoring : ∀ s, phase = .store s → c.need_commit = true) : Wf { c with phase := phase } where
  accepted := by
    show c.accepted = _ ++ phase.stmts ++ _
    rw [hstmts]
    exact h.accepted
  needs := h.needs
  storing := hstoring
  last := h.last
  alone hphase := h.alone (hcommit ▸ hphase)

theorem Wf.needing (h : c.Wf) : Wf { c with need_commit := true } where
  accepted := h.accepted
  needs _ _ _ := rfl
  storing _ _ := rfl
  last := h.last
  alone := h.alone

theorem Wf.commitLog (h : c.Wf) : Wf { c with log := c.log.map Entry.commit } where
  accepted := by
    show c.accepted = (c.log.map Entry.commit).map Entry.stmt ++ _ ++ _
    rw [List.map_map, show Entry.stmt ∘ Entry.commit = Entry.stmt (Q := Q) from
      funext Entry.commit_stmt]
    exact h.accepted
  needs en hen hopened := by
    obtain ⟨en₀, -, rfl⟩ := List.mem_map.mp hen
    exact absurd hopened en₀.commit_ne_opened
  storing := h.storing
  last := h.last
  alone := h.alone

theorem Wf.inError (h : c.Wf) : Wf { c with error := true } :=
  ⟨h.accepted, h.needs, h.storing, h.last, h.alone⟩

/-- The phase ends with no query. -/
theorem Wf.idle (h : c.Wf) (hstmts : c.phase.stmts = []) : Wf { c with phase := .idle } where
  accepted := by
    show c.accepted = _ ++ [] ++ _
    rw [← hstmts]
    exact h.accepted
  needs := h.needs
  storing _ hphase := absurd hphase nofun
  last := h.last
  alone hphase := absurd hphase nofun

variable {r : Report}

theorem Wf.query (h : c.Wf) (hphase : c.phase = .query r s) :
    (c.query r s o).Wf := by
  unfold Connection.query
  split
  · exact h.needing.finish (s := s) (by rw [hphase]; rfl) (fun _ => rfl) false false
  · exact (h.roll o).lose (by rw [roll_phase, hphase]; rfl) _

theorem Wf.prepare (h : c.Wf) {id : ℕ} (hphase : c.phase = .prepare id) :
    (c.prepare id o).Wf := by
  unfold Connection.prepare
  split
  · have hidle := h.idle (by rw [hphase]; rfl)
    exact ⟨hidle.accepted, hidle.needs, hidle.storing, hidle.last, hidle.alone⟩
  · exact ((h.roll o).idle (by rw [roll_phase, hphase]; rfl)).inError

theorem Wf.bind (h : c.Wf) (hphase : c.phase = .bind r s) :
    (c.bind r s o).Wf := by
  unfold Connection.bind
  split
  · exact h.next (by rw [hphase]; rfl) (by rw [hphase]; rfl) nofun
  · exact h.lose (by rw [hphase]; rfl) _

variable {attempts : ℕ}

theorem Wf.execute (h : c.Wf)
    (hphase : c.phase = .execute r s attempts) : (c.execute r s attempts o).Wf := by
  -- after a failure, the query is still the same
  have hretry : ∀ k, Wf { c.roll o with phase := .retryCommit r s k } := fun k =>
    (h.roll o).next (by rw [roll_phase, hphase]; rfl) (by rw [roll_phase, hphase]; rfl) nofun
  cases o with
  | ok =>
    show Wf (if r = .result then _ else _)
    split
    · exact h.needing.next (by rw [hphase]; rfl) (by rw [hphase]; rfl) fun _ _ => rfl
    · exact h.needing.finish (s := s) (by rw [hphase]; rfl) (fun _ => rfl) false false
  | gone => exact (h.roll .gone).lose (by rw [roll_phase, hphase]; rfl) true
  | deadlock => exact hretry attempts
  | lockTimeout => exact hretry attempts
  | other => exact hretry maxAttempts

theorem Wf.retryCommit (h : c.Wf)
    (hphase : c.phase = .retryCommit r s attempts) : (c.retryCommit r s attempts o).Wf := by
  have hend : ∀ d : Connection Q, d.Wf → d.phase = .retryCommit r s attempts →
      Wf (if maxAttempts ≤ attempts + 1 then d.finish s .lost true r.fatal
        else { d with phase := .execute r s (attempts + 1) }) := by
    intro d hd hphase
    split
    · exact hd.lose (by rw [hphase]; rfl) _
    · exact hd.next (by rw [hphase]; rfl) (by rw [hphase]; rfl) nofun
  unfold Connection.retryCommit
  split
  · exact hend _ h.commitLog hphase
  · exact hend _ (h.roll o) (by rw [roll_phase, hphase])

theorem Wf.store (h : c.Wf) (hphase : c.phase = .store s) : (c.store s o).Wf := by
  have hneed := h.storing s hphase
  unfold Connection.store
  split
  · exact h.finish (by rw [hphase]; rfl) (fun _ => hneed) false false
  · exact (h.roll o).finish (by rw [roll_phase, hphase]; rfl)
      (fun _ => by rw [roll_need, hneed]) true _

theorem Wf.commit (h : c.Wf) (hphase : c.phase = .commit attempts) :
    (c.commit attempts o).1.Wf := by
  unfold Connection.commit
  split
  · have hidle := h.commitLog.idle (by rw [hphase]; rfl)
    refine ⟨hidle.accepted, fun en hen hopened => ?_, fun _ hphase => absurd hphase nofun,
      hidle.last, hidle.alone⟩
    obtain ⟨en₀, -, rfl⟩ := List.mem_map.mp hen
    exact absurd hopened en₀.commit_ne_opened
  · split
    · exact ((h.roll o).idle (by rw [roll_phase, hphase]; rfl)).inError
    · exact (h.roll o).next (by rw [roll_phase, hphase]; rfl) (by rw [roll_phase, hphase]; rfl)
        nofun

theorem Wf.answer (h : c.Wf) (hstep : c.answer o = some (c', b)) : c'.Wf := by
  unfold Connection.answer at hstep
  cases hphase : c.phase with rw [hphase] at hstep
  | idle => cases hstep
  | query r s =>
    cases hstep
    exact h.query hphase
  | prepare id =>
    cases hstep
    exact h.prepare hphase
  | bind r s =>
    cases hstep
    exact h.bind hphase
  | execute r s attempts =>
    cases hstep
    exact h.execute hphase
  | retryCommit r s attempts =>
    cases hstep
    exact h.retryCommit hphase
  | store s =>
    cases hstep
    exact h.store hphase
  | commit attempts =>
    have hwf := h.commit (o := o) hphase
    rw [show c.commit attempts o = (c', b) from Option.some.inj hstep] at hwf
    exact hwf

/-! ### The tasks -/

variable {tasks : List (Task Q)} {t : Task Q}

theorem Wf.behind (h : c.Wf) (htasks : c.tasks_list = t :: tasks)
    (ht : t.isCommit = true) : tasks = [] := by
  have hlast := h.last
  rw [htasks] at hlast
  cases tasks with
  | nil => rfl
  | cons u us =>
    rw [List.dropLast_cons_cons, List.any_cons, ht, Bool.true_or] at hlast
    cases hlast

theorem Wf.tail (h : c.Wf) (htasks : c.tasks_list = t :: tasks) :
    tasks.dropLast.any Task.isCommit = false := by
  have hlast := h.last
  rw [htasks] at hlast
  cases tasks with
  | nil => rfl
  | cons u us =>
    rw [List.dropLast_cons_cons, List.any_cons, Bool.or_eq_false_iff] at hlast
    exact hlast.2

theorem take_cases (hstep : c.take = some (c', b)) :
    c.phase = .idle ∧ ∃ t tasks, c.tasks_list = t :: tasks ∧
      process t { c with tasks_list := tasks } = (c', b) := by
  unfold take at hstep
  split at hstep
  · rename_i hphase htasks
    exact ⟨hphase, _, _, htasks, Option.some.inj hstep⟩
  · cases hstep

/-- Only a commit counts, or waits for the answer to a commit. -/
theorem isCommit_of_process (hidle : c.phase = .idle)
    (hprocess : process t { c with tasks_list := tasks } = (c', b))
    (hor : b = true ∨ c'.phase.isCommit = true) : t.isCommit = true := by
  cases t with
  | commit => rfl
  | run r s =>
    cases hprocess
    exact absurd hor (by simp [Phase.isCommit])
  | prepare id =>
    simp only [process] at hprocess
    split at hprocess <;> cases hprocess <;> exact absurd hor (by simp [Phase.isCommit, hidle])
  | statement r id bind s =>
    simp only [process] at hprocess
    split at hprocess
    · cases hprocess
      exact absurd hor (by simp [Phase.isCommit, finish])
    · split at hprocess <;> cases hprocess <;> exact absurd hor (by simp [Phase.isCommit])

/-- The first call of a task. -/
theorem Wf.enter (h : c.Wf) (hidle : c.phase = .idle)
    (htasks : c.tasks_list = t :: tasks) {phase : Phase Q} (hstmts : phase.stmts = t.stmts)
    (hcommit : phase.isCommit = true → t.isCommit = true) (hstore : ∀ s, phase ≠ .store s) :
    Wf { c with tasks_list := tasks, phase := phase } where
  accepted := by
    have haccepted := h.accepted
    rw [hidle, htasks, List.flatMap_cons, ← hstmts] at haccepted
    simpa [Phase.stmts] using haccepted
  needs := h.needs
  storing s hphase := absurd hphase (hstore s)
  last := h.tail htasks
  alone hphase := h.behind htasks (hcommit hphase)

theorem Wf.take (h : c.Wf) (hstep : c.take = some (c', b)) : c'.Wf := by
  obtain ⟨hidle, t, tasks, htasks, hstep⟩ := take_cases hstep
  have henter : ∀ phase : Phase Q, phase.stmts = t.stmts →
      (phase.isCommit = true → t.isCommit = true) → (∀ s, phase ≠ .store s) →
      Wf { c with tasks_list := tasks, phase := phase } := fun _ => h.enter hidle htasks
  cases t with
  | run r s =>
    cases hstep
    exact henter (.query r s) rfl nofun nofun
  | prepare id =>
    simp only [process] at hstep
    split at hstep
    · cases hstep
      have hwf := henter .idle rfl nofun nofun
      rwa [← hidle] at hwf
    · cases hstep
      exact henter (.prepare id) rfl nofun nofun
  | statement r id bind s =>
    simp only [process] at hstep
    split at hstep
    · cases hstep
      exact (henter (.bind r s) rfl nofun nofun).lose rfl _
    · split at hstep
      · cases hstep
        exact henter (.bind r s) rfl nofun nofun
      · cases hstep
        exact henter (.execute r s 0) rfl nofun nofun
  | commit =>
    simp only [process] at hstep
    split at hstep
    · cases hstep
      exact henter (.commit 0) rfl (fun _ => rfl) nofun
    · cases hstep
      exact henter .idle rfl nofun nofun

/-- A caller that waits for no commit gives a task. -/
theorem Wf.push (h : c.Wf) (howes : c.owes = false) (t : Task Q) : (c.push t).Wf := by
  obtain ⟨htasks, hphase⟩ := Bool.or_eq_false_iff.mp howes
  refine ⟨?_, h.needs, h.storing, ?_, fun hcommit => ?_⟩
  · show c.accepted ++ _ = c.log.map Entry.stmt ++ c.phase.stmts ++ (c.tasks_list ++ [t]).flatMap _
    rw [List.flatMap_append, ← List.append_assoc, ← h.accepted]
    cases t <;> rfl
  · show (c.tasks_list ++ [t]).dropLast.any Task.isCommit = false
    rwa [List.dropLast_concat]
  · rw [show c.phase.isCommit = true from hcommit] at hphase
    cases hphase

/-! ### Whether a commit is still to be counted -/

theorem owes_take (hstep : c.take = some (c', b)) : c.owes = (b || c'.owes) := by
  obtain ⟨hidle, t, tasks, htasks, hstep⟩ := take_cases hstep
  have howes : c.owes = (t.isCommit || tasks.any Task.isCommit) := by
    unfold owes
    rw [hidle, htasks, List.any_cons]
    simp [Phase.isCommit]
  rw [howes]
  cases t with
  | run r s =>
    cases hstep
    simp [owes, Task.isCommit, Phase.isCommit]
  | prepare id =>
    simp only [process] at hstep
    split at hstep <;> cases hstep <;> simp [owes, Task.isCommit, Phase.isCommit, hidle]
  | statement r id bind s =>
    simp only [process] at hstep
    split at hstep
    · cases hstep
      simp [owes, Task.isCommit, Phase.isCommit, finish]
    · split at hstep <;> cases hstep <;> simp [owes, Task.isCommit, Phase.isCommit]
  | commit =>
    simp only [process] at hstep
    split at hstep <;> cases hstep <;> simp [owes, Task.isCommit, Phase.isCommit]

/-- What is queued stays. Only the answer to a commit can count, and a commit goes on or counts. -/
theorem answer_frame (hstep : c.answer o = some (c', b)) :
    c'.tasks_list = c.tasks_list ∧ c.phase.isCommit = (b || c'.phase.isCommit) := by
  unfold answer at hstep
  cases hphase : c.phase with rw [hphase] at hstep
  | idle => cases hstep
  | query r s =>
    cases hstep
    simp only [query]
    split <;> exact ⟨by simp [finish], rfl⟩
  | prepare id =>
    cases hstep
    simp only [prepare]
    split <;> exact ⟨by simp, rfl⟩
  | bind r s =>
    cases hstep
    simp only [bind]
    split <;> exact ⟨by simp [finish], rfl⟩
  | execute r s attempts =>
    cases hstep
    cases o with
    | ok =>
      simp only [execute]
      split <;> exact ⟨by simp [finish], rfl⟩
    | _ => exact ⟨by simp [execute, finish], rfl⟩
  | retryCommit r s attempts =>
    cases hstep
    simp only [retryCommit]
    split <;> split <;> exact ⟨by simp [finish], rfl⟩
  | store s =>
    cases hstep
    simp only [store]
    split <;> exact ⟨by simp [finish], rfl⟩
  | commit attempts =>
    simp only [Option.some.injEq, commit, counts] at hstep
    split at hstep
    · cases hstep
      exact ⟨rfl, rfl⟩
    · split at hstep <;> cases hstep <;> exact ⟨by simp, rfl⟩

theorem owes_answer (hstep : c.answer o = some (c', b)) : c.owes = (b || c'.owes) := by
  unfold owes
  rw [(answer_frame hstep).1, (answer_frame hstep).2, Bool.or_left_comm]

theorem commit_of_counts (hstep : c.answer o = some (c', true)) :
    ∃ attempts, c.phase = .commit attempts ∧ c.commit attempts o = (c', true) := by
  unfold answer at hstep
  cases hphase : c.phase with rw [hphase] at hstep
  | commit attempts => exact ⟨attempts, rfl, Option.some.inj hstep⟩
  | _ => cases hstep

/-- A connection that just counted has nothing left to do. -/
theorem Wf.idle_of_take (h : c.Wf) (hstep : c.take = some (c', true)) :
    c'.tasks_list = [] ∧ c'.phase = .idle ∧ c'.need_commit = false ∧ c'.log = c.log := by
  obtain ⟨hidle, t, tasks, htasks, hstep⟩ := take_cases hstep
  cases t with
  | run r s => cases hstep
  | prepare id =>
    simp only [process] at hstep
    split at hstep <;> cases hstep
  | statement r id bind s =>
    simp only [process] at hstep
    split at hstep
    · cases hstep
    · split at hstep <;> cases hstep
  | commit =>
    simp only [process] at hstep
    split at hstep
    · cases hstep
    · rename_i hneed
      cases hstep
      exact ⟨h.behind htasks rfl, rfl, Bool.eq_false_iff.mpr hneed, rfl⟩

theorem Wf.idle_of_answer (h : c.Wf) (hstep : c.answer o = some (c', true)) :
    c'.tasks_list = [] ∧ c'.phase = .idle := by
  refine ⟨?_, ?_⟩
  · obtain ⟨attempts, hphase, -⟩ := commit_of_counts hstep
    rw [(answer_frame hstep).1]
    exact h.alone (by rw [hphase]; rfl)
  · obtain ⟨attempts, -, hcommit⟩ := commit_of_counts hstep
    unfold Connection.commit at hcommit
    split at hcommit
    · cases hcommit
      rfl
    · split at hcommit
      · cases hcommit
        rfl
      · cases hcommit

/-! ### What is lost -/

/-- A connection that is not in error has lost no query that went well. -/
def Sound (c : Connection Q) : Prop := c.error = false → c.Intact

theorem Sound.push (h : c.Sound) (t : Task Q) : (c.push t).Sound := h

theorem Sound.take (h : c.Sound) (hstep : c.take = some (c', b)) : c'.Sound := by
  obtain ⟨-, t, tasks, -, hstep⟩ := take_cases hstep
  cases t with
  | run r s =>
    cases hstep
    exact h
  | prepare id | commit =>
    simp only [process] at hstep
    split at hstep <;> cases hstep <;> exact h
  | statement r id bind s =>
    simp only [process] at hstep
    split at hstep
    · cases hstep
      intro herror
      exact Intact.finish (h (Bool.or_eq_false_iff.mp herror).1) false nofun
    · split at hstep <;> cases hstep <;> exact h

/-- A query that failed, with what the failure did to the transaction. -/
theorem Sound.lose (h : c.Sound) {fate : Fate} {error : Bool}
    (hsafe : c.error = false → error = false → c.Exposed → o.rollsBack = false) :
    ((c.roll o).finish s fate true error).Sound := by
  intro herror
  obtain ⟨herror, hfinish⟩ := Bool.or_eq_false_iff.mp herror
  rw [roll_error] at herror
  exact ((h herror).roll (hsafe herror hfinish)).finish false nofun

/-- An answer that loses nothing in silence. -/
theorem Sound.answer (h : c.Sound) (hstep : c.answer o = some (c', b))
    (hsafe : c.error = false → c.Exposed → c.silent o = false) : c'.Sound := by
  unfold Connection.silent at hsafe
  unfold Connection.answer at hstep
  cases hphase : c.phase with (rw [hphase] at hstep hsafe; dsimp only at hsafe)
  | idle => cases hstep
  | query r s =>
    cases hstep
    unfold Connection.query
    split
    · exact fun herror => (h (Bool.or_eq_false_iff.mp herror).1).finish false nofun
    · refine h.lose fun herror hfinish hexposed => ?_
      have hsilent := hsafe herror hexposed
      obtain ⟨hfatal, hserver⟩ := Bool.or_eq_false_iff.mp hfinish
      cases o <;> simp_all [Outcome.serverError, Outcome.rollsBack]
  | prepare id =>
    cases hstep
    unfold Connection.prepare
    split
    · exact h
    · exact fun herror => Bool.noConfusion herror
  | bind r s =>
    cases hstep
    unfold Connection.bind
    split
    · exact h
    · exact fun herror => (h (Bool.or_eq_false_iff.mp herror).1).finish false nofun
  | execute r s attempts =>
    cases hstep
    cases o with
    | ok =>
      show Sound (if r = .result then _ else _)
      split
      · exact h
      · exact fun herror => (h (Bool.or_eq_false_iff.mp herror).1).finish false nofun
    | gone => exact fun herror => Bool.noConfusion ((Bool.or_true _).symm.trans herror)
    | deadlock =>
      intro herror
      have herror : c.error = false := herror
      exact (h herror).roll (o := .deadlock) fun hexposed => absurd (hsafe herror hexposed) nofun
    | lockTimeout => exact h
    | other => exact h
  | retryCommit r s attempts =>
    cases hstep
    unfold Connection.retryCommit
    by_cases hok : o = .ok
    · rw [if_pos hok]
      split
      · exact fun herror => (h (Bool.or_eq_false_iff.mp herror).1).commit.finish false nofun
      · exact fun herror => (h herror).commit
    · rw [if_neg hok]
      split
      · rename_i hlast
        refine h.lose fun herror hfatal hexposed => ?_
        have hsilent := hsafe herror hexposed
        rw [hfatal, Bool.false_and, Bool.not_false, Bool.and_true] at hsilent
        exact hsilent
      · rename_i hlast
        intro herror
        have herror : (c.roll o).error = false := herror
        rw [roll_error] at herror
        refine (h herror).roll fun hexposed => ?_
        have hsilent := hsafe herror hexposed
        rw [decide_eq_false hlast, Bool.and_false, Bool.not_false, Bool.and_true] at hsilent
        exact hsilent
  | store s =>
    cases hstep
    unfold Connection.store
    split
    · exact fun herror => (h (Bool.or_eq_false_iff.mp herror).1).finish false nofun
    · refine h.lose fun herror hfinish hexposed => ?_
      have hsilent := hsafe herror hexposed
      cases o <;> simp_all [Outcome.serverError, Outcome.rollsBack]
  | commit attempts =>
    have hstep : c.commit attempts o = (c', b) := Option.some.inj hstep
    unfold Connection.commit at hstep
    split at hstep
    · cases hstep
      exact fun herror => (h herror).commit
    · split at hstep
      · cases hstep
        exact fun herror => Bool.noConfusion herror
      · rename_i hok hlast
        cases hstep
        intro herror
        have herror : (c.roll o).error = false := herror
        rw [roll_error] at herror
        refine (h herror).roll fun hexposed => ?_
        have hsilent := hsafe herror hexposed
        obtain ⟨hgone, hlast⟩ := not_or.mp hlast
        rw [decide_eq_true (Nat.not_le.mp hlast), Bool.and_true] at hsilent
        cases o <;> simp_all [Outcome.rollsBack]

/-- A commit that is answered well leaves nothing open. -/
theorem not_exposed_of_error (hstep : c.answer o = some (c', true)) (herror : c'.error = false) :
    ¬ c'.Exposed := by
  obtain ⟨attempts, -, hcommit⟩ := commit_of_counts hstep
  unfold commit at hcommit
  split at hcommit
  · cases hcommit
    exact not_exposed_commit c false .idle
  · split at hcommit <;> cases hcommit
    cases herror

/-- A commit that does not fail keeps what was not lost. -/
theorem Intact.answer (h : c.Intact) (hphase : c.phase.isCommit = true)
    (hstep : c.answer o = some (c', b)) (hsafe : c.Exposed → c.failsCommit o = false) :
    c'.Intact ∧ (b = true → ¬ c'.Exposed) := by
  unfold failsCommit at hsafe
  unfold Connection.answer at hstep
  cases hcommit : c.phase with (rw [hcommit] at hstep hsafe hphase; dsimp only at hsafe)
  | commit attempts =>
    have hstep : c.commit attempts o = (c', b) := Option.some.inj hstep
    have hroll : (c.roll o).Intact := h.roll fun hexposed =>
      (Bool.or_eq_false_iff.mp (hsafe hexposed)).1
    unfold Connection.commit at hstep
    split at hstep
    · cases hstep
      exact ⟨h.commit, fun _ => not_exposed_commit c false .idle⟩
    · rename_i hok
      split at hstep
      · rename_i hlast
        cases hstep
        refine ⟨hroll, fun _ hexposed => ?_⟩
        have hfails := hsafe (Exposed.of_roll (o := o) hexposed)
        rcases hlast with rfl | hlast
        · cases hfails
        · rw [decide_eq_true hlast, Bool.and_true, Bool.or_eq_false_iff] at hfails
          exact hok (by simpa using hfails.2)
      · cases hstep
        exact ⟨hroll, nofun⟩
  | _ => cases hphase

end Steps

end Connection

end CentreonBroker.Mysql
