import Mathlib.Data.List.Basic
import Mathlib.Data.List.Infix
import Mathlib.Data.Nat.Notation
import Mathlib.Tactic.Cases

/-!
# A connection, as the stream that owns it sees it

What is run after a commit is in one transaction. The connection has a thread of its own: a
statement that nothing is asked of may fail behind the call, and only the next statement throws. A
commit that fails throws neither, and commits nothing.

What the server makes of the calls is a list of replies. It does all that comes after them.
-/

namespace CentreonBroker.Mysql

/-- What becomes of the open transaction while the server is asked for something. -/
inductive Before where
  | kept
  /-- By the `mysql_commit` that follows a failure. -/
  | committed
  /-- By a deadlock, or with the server. -/
  | rolledBack
  deriving DecidableEq

/-- What the server makes of a statement or of a commit, when the attempts are over. -/
structure Reply where
  before : Before
  done : Bool
  /-- `_server_error`: the connection is in error, whether the statement is fatal or not. -/
  server_error : Bool
  deriving DecidableEq

namespace Reply

def ok : Reply := ⟨.kept, true, false⟩

/-- It was done, and nothing was lost. -/
def Good (r : Reply) : Prop := r.done = true ∧ r.before ≠ .rolledBack

instance (r : Reply) : Decidable r.Good := inferInstanceAs (Decidable (_ ∧ _))

end Reply

/-- The database with the tables `T`, over a connection that runs the statements `S`. -/
structure Session (T S : Type) where
  tables : T
  /-- What is in the tables for good. -/
  durable : T
  committed : List S
  /-- The statements that were run since the last commit. -/
  transaction : List S
  /-- What there is to commit, in order: the statements that were run, and the fatal ones that
  failed. -/
  asked : List S
  need_commit : Bool
  /-- `_error` is active. -/
  error : Bool
  replies : List Reply

namespace Session

variable {T S A : Type}

def new (tables : T) (replies : List Reply) : Session T S :=
  ⟨tables, tables, [], [], [], false, false, replies⟩

def save (db : Session T S) : Session T S :=
  { db with
    durable := db.tables, committed := db.committed ++ db.transaction, transaction := [] }

def rollback (db : Session T S) : Session T S :=
  { db with tables := db.durable, transaction := [] }

def reply (db : Session T S) : Reply := db.replies.headD .ok

/-- After the reply to a call. -/
def answered (db : Session T S) : Session T S :=
  let db' := { db with replies := db.replies.tail }
  match db.reply.before with
  | .kept => db'
  | .committed => db'.save
  | .rolledBack => db'.rollback

def executed (st : S) (tables : T) (db : Session T S) : Session T S :=
  { db with
    tables := tables
    transaction := db.transaction ++ [st]
    asked := db.asked ++ [st]
    need_commit := true }

def failed (fatal : Bool) (st : S) (db : Session T S) : Session T S :=
  { db.answered with
    asked := if fatal then db.answered.asked ++ [st] else db.answered.asked
    error := fatal || db.reply.server_error }

/-- `_check_errors`. -/
def check_errors (db : Session T S) : Option (Session T S) := if db.error then none else some db

section

variable (exec : T → S → Option (A × T))

/-- What the server makes of a statement: the keys of the tables may refuse it as well. -/
def attempt (st : S) (db : Session T S) : Option (A × T) :=
  if db.reply.done then exec db.answered.tables st else none

/-- `run_statement_and_get_int`, which throws where the statement fails. -/
def run_and_get (st : S) (db : Session T S) : Option (A × Session T S) :=
  db.check_errors.bind fun db =>
    (db.attempt exec st).map fun r => (r.1, db.answered.executed st r.2)

/-- `run_statement` and `run_query`. -/
def run_statement (fatal : Bool) (st : S) (db : Session T S) : Option (Session T S) :=
  db.check_errors.map fun db =>
    match db.attempt exec st with
    | some r => db.answered.executed st r.2
    | none => db.failed fatal st

end

/-- `mysql::commit`. -/
def commit (db : Session T S) : Session T S :=
  if db.need_commit then
    if db.reply.done then { db.answered.save with need_commit := false }
    else { db.answered with error := true }
  else db

/-! ## What a call keeps -/

/-- What is to commit and what is committed only grow. -/
structure Grows (db db' : Session T S) : Prop where
  committed : db.committed <+: db'.committed
  asked : db.asked <+: db'.asked

/-- The server does all that it will be asked for. -/
def Served (db : Session T S) : Prop := ∀ r ∈ db.replies, r.Good

/-- What was asked is committed or in the transaction. -/
structure Sound (db : Session T S) : Prop where
  served : db.Served
  asked : db.asked = db.committed ++ db.transaction
  need_commit : db.need_commit = false → db.transaction = []

variable {db db' : Session T S} {st : S} {fatal : Bool}

theorem Grows.refl (db : Session T S) : Grows db db := ⟨List.prefix_refl _, List.prefix_refl _⟩

theorem Grows.trans {db₁ : Session T S} (h : Grows db db₁) (h' : Grows db₁ db') : Grows db db' :=
  ⟨h.committed.trans h'.committed, h.asked.trans h'.asked⟩

theorem served_new (tables : T) : (new tables [] : Session T S).Served :=
  fun _ h => absurd h List.not_mem_nil

theorem sound_new (tables : T) {replies : List Reply} (h : ∀ r ∈ replies, r.Good) :
    (new tables replies : Session T S).Sound := ⟨h, rfl, fun _ => rfl⟩

theorem grows_answered (db : Session T S) : Grows db db.answered := by
  unfold answered
  dsimp only
  split
  · exact ⟨List.prefix_refl _, List.prefix_refl _⟩
  · exact ⟨List.prefix_append .., List.prefix_refl _⟩
  · exact ⟨List.prefix_refl _, List.prefix_refl _⟩

theorem grows_executed (st : S) (tables : T) (db : Session T S) : Grows db (db.executed st tables) :=
  ⟨List.prefix_refl _, List.prefix_append ..⟩

theorem grows_failed (fatal : Bool) (st : S) (db : Session T S) : Grows db (db.failed fatal st) := by
  refine (grows_answered db).trans ⟨List.prefix_refl _, ?_⟩
  show _ <+: if fatal then _ else _
  split
  · exact List.prefix_append ..
  · exact List.prefix_refl _

theorem good_reply (h : db.Served) : db.reply.Good := by
  unfold reply
  cases hreplies : db.replies with
  | nil => exact ⟨rfl, nofun⟩
  | cons r replies => exact h r (hreplies ▸ List.mem_cons_self)

/-- A good reply leaves the tables as they are. -/
theorem served_answered (h : db.Served) : db.answered.Served ∧ db.answered.tables = db.tables := by
  have htail : ∀ r ∈ db.replies.tail, r.Good := fun r hr => h r (List.mem_of_mem_tail hr)
  obtain ⟨-, hbefore⟩ := good_reply h
  unfold answered
  dsimp only
  split
  · exact ⟨htail, rfl⟩
  · exact ⟨htail, rfl⟩
  · rename_i hrolledBack
    exact absurd hrolledBack hbefore

theorem Sound.answered (h : db.Sound) : db.answered.Sound := by
  obtain ⟨hserved, -⟩ := served_answered h.served
  obtain ⟨-, hbefore⟩ := good_reply h.served
  refine ⟨hserved, ?_, ?_⟩ <;> unfold Session.answered <;> dsimp only <;> split
  · exact h.asked
  · exact h.asked.trans (List.append_nil _).symm
  · rename_i hrolledBack
    exact absurd hrolledBack hbefore
  · exact h.need_commit
  · exact fun _ => rfl
  · exact fun _ => rfl

theorem Sound.executed (h : db.Sound) (st : S) (tables : T) : (db.executed st tables).Sound :=
  ⟨h.served, (congrArg (· ++ [st]) h.asked).trans (List.append_assoc ..), nofun⟩

/-- A statement that is not fatal may fail. -/
theorem Sound.failed (h : db.Sound) (st : S) : (db.failed false st).Sound :=
  ⟨h.answered.served, h.answered.asked, h.answered.need_commit⟩

theorem served_commit (h : db.Served) : db.commit.Served := by
  unfold commit
  split
  · split <;> exact (served_answered h).1
  · exact h

/-- Nothing is left to commit. -/
theorem Sound.commit (h : db.Sound) : db.commit.Sound ∧ db.commit.committed = db.commit.asked := by
  have hanswered := h.answered
  unfold Session.commit
  split
  · rw [if_pos (good_reply h.served).1]
    have hasked : db.answered.asked = (db.answered.committed ++ db.answered.transaction) ++ [] :=
      hanswered.asked.trans (List.append_nil _).symm
    exact ⟨⟨hanswered.served, hasked, fun _ => rfl⟩, hanswered.asked.symm⟩
  · rename_i hneed
    have hempty := h.need_commit (Bool.eq_false_iff.mpr hneed)
    refine ⟨h, ?_⟩
    rw [h.asked, hempty, List.append_nil]

theorem grows_commit (db : Session T S) : Grows db db.commit := by
  unfold commit
  split
  · split
    · exact (grows_answered db).trans ⟨List.prefix_append .., List.prefix_refl _⟩
    · exact (grows_answered db).trans ⟨List.prefix_refl _, List.prefix_refl _⟩
  · exact .refl db

theorem asked_commit (db : Session T S) : db.commit.asked = db.asked := by
  have hanswered : db.answered.asked = db.asked := by
    unfold answered
    dsimp only
    split <;> rfl
  unfold commit
  split
  · split <;> exact hanswered
  · rfl

section

variable {exec : T → S → Option (A × T)}

theorem check_errors_eq (h : db.check_errors = some db') : db' = db := by
  unfold check_errors at h
  split at h
  · cases h
  · exact (Option.some.inj h).symm

/-- Where the server does what it is asked for, the tables alone decide. -/
theorem attempt_eq (exec : T → S → Option (A × T)) (h : db.Served) (st : S) :
    db.attempt exec st = exec db.tables st := by
  rw [attempt, if_pos (good_reply h).1, (served_answered h).2]

theorem run_and_get_eq {r : A × Session T S} (h : db.run_and_get exec st = some r) :
    ∃ tables, db.attempt exec st = some (r.1, tables) ∧ r.2 = db.answered.executed st tables := by
  obtain ⟨db', hchecked, h⟩ := Option.bind_eq_some_iff.mp h
  cases check_errors_eq hchecked
  obtain ⟨x, hattempt, rfl⟩ := Option.map_eq_some_iff.mp h
  exact ⟨x.2, hattempt, rfl⟩

theorem run_statement_eq (h : db.run_statement exec fatal st = some db') :
    (∃ r, db.attempt exec st = some r ∧ db' = db.answered.executed st r.2) ∨
      db.attempt exec st = none ∧ db' = db.failed fatal st := by
  obtain ⟨db₁, hchecked, h⟩ := Option.map_eq_some_iff.mp h
  cases check_errors_eq hchecked
  split at h
  · rename_i r hattempt
    exact .inl ⟨r, hattempt, h.symm⟩
  · rename_i hattempt
    exact .inr ⟨hattempt, h.symm⟩

end

end Session

end CentreonBroker.Mysql
