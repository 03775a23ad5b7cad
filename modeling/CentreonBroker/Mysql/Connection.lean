import Mathlib.Data.List.Basic
import Mathlib.Tactic.Cases
import Mathlib.Data.Nat.Notation

/-!
# A connection to the database server

A connection has a thread of its own, which takes the tasks one after the other and makes the
calls of each. Several queries are in one transaction (the server does not commit by itself),
so that what a query did is in the open transaction until a commit. Any call may fail; a
deadlock rolls the open transaction back, and the server does so too when it loses the
connection.

What the server did with each query is kept in a log that is not in the code.
-/

namespace CentreonBroker.Mysql

/-- What a call to the server answers. -/
inductive Outcome where
  | ok
  /-- `CR_SERVER_GONE_ERROR` or `CR_SERVER_LOST`. -/
  | gone
  /-- 1213. -/
  | deadlock
  /-- 1205: only the query is rolled back. -/
  | lockTimeout
  | other
  deriving DecidableEq, Repr

/-- `_server_error`. -/
def Outcome.serverError : Outcome → Bool
  | .gone => true
  | _ => false

/-- Does a call that answers this lose the open transaction? -/
def Outcome.rollsBack : Outcome → Bool
  | .gone => true
  | .deadlock => true
  | _ => false

/-- How the caller of a query hears of its failure. -/
inductive Report where
  /-- `run_query` and `run_statement`. -/
  | log (fatal : Bool)
  /-- The variants with a promise for the result. -/
  | result
  /-- The variants with a promise for an integer. -/
  | int
  deriving DecidableEq, Repr

def Report.fatal : Report → Bool
  | .log fatal => fatal
  | _ => false

/-- Without a promise, a statement that is not prepared is an error of the connection. -/
def Report.isLog : Report → Bool
  | .log _ => true
  | _ => false

/-- A query, or a prepared statement with its values, and the flag of the event it is for. -/
structure Stmt (Q : Type) where
  query : Q
  flag : ℕ
  deriving DecidableEq

inductive Fate where
  /-- In the open transaction. -/
  | opened
  | durable
  /-- Not in the database, and never will be. -/
  | lost
  deriving DecidableEq, Repr

/-- What became of a query. -/
structure Entry (Q : Type) where
  stmt : Stmt Q
  fate : Fate
  /-- A log line, an error of the connection or a promise says that it failed. -/
  reported : Bool
  deriving DecidableEq

namespace Entry

variable {Q : Type}

def commit (en : Entry Q) : Entry Q := if en.fate = .opened then { en with fate := .durable } else en

def rollback (en : Entry Q) : Entry Q := if en.fate = .opened then { en with fate := .lost } else en

@[simp] theorem commit_stmt (en : Entry Q) : en.commit.stmt = en.stmt := by
  unfold commit
  split <;> rfl

@[simp] theorem rollback_stmt (en : Entry Q) : en.rollback.stmt = en.stmt := by
  unfold rollback
  split <;> rfl

@[simp] theorem commit_reported (en : Entry Q) : en.commit.reported = en.reported := by
  unfold commit
  split <;> rfl

@[simp] theorem rollback_reported (en : Entry Q) : en.rollback.reported = en.reported := by
  unfold rollback
  split <;> rfl

theorem commit_ne_opened (en : Entry Q) : en.commit.fate ≠ .opened := by
  unfold commit
  split
  · nofun
  · assumption

theorem rollback_ne_opened (en : Entry Q) : en.rollback.fate ≠ .opened := by
  unfold rollback
  split
  · nofun
  · assumption

theorem commit_ne_lost {en : Entry Q} (h : en.fate ≠ .lost) : en.commit.fate ≠ .lost := by
  unfold commit
  split
  · nofun
  · exact h

end Entry

inductive Task (Q : Type) where
  | run (r : Report) (s : Stmt Q)
  | prepare (id : ℕ)
  /-- `bind` tells if there are values to bind. -/
  | statement (r : Report) (id : ℕ) (bind : Bool) (s : Stmt Q)
  | commit
  deriving DecidableEq

/-- The call that the thread is in. -/
inductive Phase (Q : Type) where
  | idle
  | query (r : Report) (s : Stmt Q)
  | prepare (id : ℕ)
  | bind (r : Report) (s : Stmt Q)
  | execute (r : Report) (s : Stmt Q) (attempts : ℕ)
  /-- The `mysql_commit` that follows a failure, whose answer nobody looks at. -/
  | retryCommit (r : Report) (s : Stmt Q) (attempts : ℕ)
  /-- The result of a statement is read. -/
  | store (s : Stmt Q)
  | commit (attempts : ℕ)
  deriving DecidableEq

/-- `MAX_ATTEMPTS`. -/
def maxAttempts : ℕ := 10

structure Connection (Q : Type) where
  tasks_list : List (Task Q)
  phase : Phase Q
  need_commit : Bool
  error : Bool
  /-- The statements that `_stmt` has. -/
  prepared : ℕ → Bool
  log : List (Entry Q)
  /-- All that the callers gave to the connection. -/
  accepted : List (Stmt Q)

namespace Connection

variable {Q : Type}

def new : Connection Q := ⟨[], .idle, false, false, fun _ => false, [], []⟩

/-- `_push`. -/
def push (t : Task Q) (c : Connection Q) : Connection Q :=
  { c with
    tasks_list := c.tasks_list ++ [t]
    accepted := c.accepted ++ match t with
      | .run _ s => [s]
      | .statement _ _ _ s => [s]
      | _ => [] }

/-- The end of a query: what became of it, and whether the connection is in error. -/
def finish (s : Stmt Q) (fate : Fate) (reported error : Bool) (c : Connection Q) : Connection Q :=
  { c with
    phase := .idle
    log := c.log ++ [⟨s, fate, reported⟩]
    error := c.error || error }

/-- What a call that failed did to the open transaction. -/
def roll (o : Outcome) (c : Connection Q) : Connection Q :=
  if o.rollsBack then { c with log := c.log.map Entry.rollback } else c

/-- The end of a commit: `count` goes down, whatever the commit did. -/
def counts (c : Connection Q) : Connection Q × Bool := ({ c with phase := .idle }, true)

/-- A task up to its first call. The boolean tells whether `count` goes down. -/
def process (t : Task Q) (c : Connection Q) : Connection Q × Bool :=
  match t with
  | .run r s => ({ c with phase := .query r s }, false)
  | .prepare id => if c.prepared id then (c, false) else ({ c with phase := .prepare id }, false)
  | .statement r id bind s =>
    if !c.prepared id then (c.finish s .lost true r.isLog, false)
    else if bind then ({ c with phase := .bind r s }, false)
    else ({ c with phase := .execute r s 0 }, false)
  | .commit => if c.need_commit then ({ c with phase := .commit 0 }, false) else c.counts

/-- The thread takes a task from the list. -/
def take (c : Connection Q) : Option (Connection Q × Bool) :=
  match c.phase, c.tasks_list with
  | .idle, t :: tasks => some (process t { c with tasks_list := tasks })
  | _, _ => none

/-- `_query`, `_query_res` and `_query_int`, once the server has answered. -/
def query (r : Report) (s : Stmt Q) (o : Outcome) (c : Connection Q) : Connection Q :=
  if o = .ok then { c.finish s .opened false false with need_commit := true }
  else (c.roll o).finish s .lost true (r.fatal || o.serverError)

/-- `_prepare`. -/
def prepare (id : ℕ) (o : Outcome) (c : Connection Q) : Connection Q :=
  if o = .ok then { c with phase := .idle, prepared := fun i => i == id || c.prepared i }
  else { c.roll o with phase := .idle, error := true }

/-- `mysql_stmt_bind_param` asks nothing of the server. A variant with a promise sets no error. -/
def bind (r : Report) (s : Stmt Q) (o : Outcome) (c : Connection Q) : Connection Q :=
  if o = .ok then { c with phase := .execute r s 0 }
  else c.finish s .lost true (r.isLog && (r.fatal || o.serverError))

/-- `mysql_stmt_execute`. An error that is no lock leaves no other attempt. -/
def execute (r : Report) (s : Stmt Q) (attempts : ℕ) (o : Outcome) (c : Connection Q) :
    Connection Q :=
  match o with
  | .ok =>
    let c := { c with need_commit := true }
    if r = .result then { c with phase := .store s } else c.finish s .opened false false
  | .gone => (c.roll o).finish s .lost true true
  | .deadlock => { c.roll o with phase := .retryCommit r s attempts }
  | .lockTimeout => { c.roll o with phase := .retryCommit r s attempts }
  | .other => { c.roll o with phase := .retryCommit r s maxAttempts }

/-- The commit before the next attempt, or before giving up. -/
def retryCommit (r : Report) (s : Stmt Q) (attempts : ℕ) (o : Outcome) (c : Connection Q) :
    Connection Q :=
  let c := if o = .ok then { c with log := c.log.map Entry.commit } else c.roll o
  if maxAttempts ≤ attempts + 1 then c.finish s .lost true r.fatal
  else { c with phase := .execute r s (attempts + 1) }

/-- The result of a statement that was executed. A failure goes to the promise. -/
def store (s : Stmt Q) (o : Outcome) (c : Connection Q) : Connection Q :=
  if o = .ok then c.finish s .opened false false
  else (c.roll o).finish s (if o.rollsBack then .lost else .opened) true o.serverError

/-- `_commit`. -/
def commit (attempts : ℕ) (o : Outcome) (c : Connection Q) : Connection Q × Bool :=
  if o = .ok then { c with log := c.log.map Entry.commit, need_commit := false }.counts
  else if o = .gone ∨ maxAttempts ≤ attempts + 1 then { c.roll o with error := true }.counts
  else ({ c.roll o with phase := .commit (attempts + 1) }, false)

/-- The server answers the call. -/
def answer (o : Outcome) (c : Connection Q) : Option (Connection Q × Bool) :=
  match c.phase with
  | .idle => none
  | .query r s => some (c.query r s o, false)
  | .prepare id => some (c.prepare id o, false)
  | .bind r s => some (c.bind r s o, false)
  | .execute r s attempts => some (c.execute r s attempts o, false)
  | .retryCommit r s attempts => some (c.retryCommit r s attempts o, false)
  | .store s => some (c.store s o, false)
  | .commit attempts => some (c.commit attempts o)

end Connection

end CentreonBroker.Mysql
