import CentreonBroker.Mysql.ConnectionInv
import CentreonBroker.Storage.ConflictManager

/-!
# Commits over several connections

`mysql::commit` gives a commit to each connection and waits. The connections count down a
common counter, and the one that brings it to zero sets a promise. The conflict manager commits
with `_finish_actions`, then counts the events at the front of its timelines as acknowledged.

A commit that failed counts as well, and a query that meets a deadlock is tried again alone. So
the promise does not say that what went well is committed. It does in a run where no
transaction is lost without an error, and `_finish_actions` is safe in such a run if its own
commits go well too.
-/

namespace CentreonBroker.Mysql

open Storage (Element Manager Slot sql storage)

/-- `mysql::commit`, while it gives its tasks and waits for the promise. -/
structure Wait (n : ℕ) where
  targets : List (Fin n)
  /-- The connections that have no commit yet. -/
  remaining : List (Fin n)
  /-- `ko`. -/
  count : ℕ
  promise : Bool
  /-- The call is from `_finish_actions`. -/
  finishing : Bool

/-- `if (--task->count == 0) task->promise->set_value(true)`. -/
def Wait.countDown {n : ℕ} (k : Wait n) : Wait n :=
  { k with count := k.count - 1, promise := k.promise || k.count == 1 }

/-- The connections of a `mysql` object, and the conflict manager that uses it. -/
structure System (Q T : Type) (n : ℕ) where
  connection : Fin n → Connection Q
  wait : Option (Wait n)
  manager : Manager T

inductive Act (Q T : Type) (n : ℕ) where
  | run_query (thread_id : Fin n) (r : Report) (s : Stmt Q)
  | run_statement (thread_id : Fin n) (r : Report) (id : ℕ) (bind : Bool) (s : Stmt Q)
  | prepare_statement (id : ℕ)
  /-- Of one connection, or of all. -/
  | commit (thread_id : Option (Fin n))
  | finish_actions
  /-- A commit is given to the next connection. -/
  | push
  /-- The promise is set: `mysql::commit` returns. -/
  | ret
  /-- The thread of a connection takes a task. -/
  | take (i : Fin n)
  | answer (i : Fin n) (o : Outcome)
  /-- A step of the conflict manager or of its streams, other than `_finish_actions`. -/
  | manager (a : Storage.Act T)

namespace System

variable {Q T : Type} {n : ℕ}

def start (ack : Fin 2 → ℤ) : System Q T n := ⟨fun _ => .new, none, Manager.start ack⟩

def setConnection (i : Fin n) (c : Connection Q) (w : System Q T n) : System Q T n :=
  { w with connection := Function.update w.connection i c }

/-- `_check_errors`. -/
def in_error (w : System Q T n) : Prop := ∃ i, (w.connection i).error = true

instance (w : System Q T n) : Decidable w.in_error := inferInstanceAs (Decidable (∃ _, _))

/-- A query is given to a connection, if none is in error. -/
def give (i : Fin n) (t : Task Q) (w : System Q T n) : System Q T n :=
  if w.in_error then w else w.setConnection i ((w.connection i).push t)

/-- `mysql::commit` starts. -/
def wait_commit (targets : List (Fin n)) (finishing : Bool) (w : System Q T n) : System Q T n :=
  { w with wait := some ⟨targets, targets, targets.length, false, finishing⟩ }

/-- What the thread of a connection did. -/
def progress (i : Fin n) (r : Connection Q × Bool) (w : System Q T n) : System Q T n :=
  let w := w.setConnection i r.1
  if r.2 then { w with wait := w.wait.map Wait.countDown } else w

/-- What the streams do, while the loop of the conflict manager waits. -/
def ofStream : Storage.Act T → Bool
  | .send_event _ _ _ => true
  | .get_acks _ => true
  | _ => false

variable (outcome : Element T 2 → Storage.Outcome)

/-- A step, if there is one. The caller waits until the promise is set. -/
def step (w : System Q T n) : Act Q T n → Option (System Q T n)
  | .run_query i r s => if w.wait.isNone then some (w.give i (.run r s)) else none
  | .run_statement i r id bind s =>
    if w.wait.isNone then some (w.give i (.statement r id bind s)) else none
  | .prepare_statement id =>
    if w.wait.isNone then
      some (if w.in_error then w
        else { w with connection := fun i => (w.connection i).push (.prepare id) })
    else none
  | .commit none =>
    if w.wait.isNone then some (w.wait_commit (List.finRange n) false) else none
  | .commit (some i) => if w.wait.isNone then some (w.wait_commit [i] false) else none
  | .finish_actions =>
    if w.wait.isNone && w.manager.events.isEmpty then some (w.wait_commit (List.finRange n) true) else none
  | .push =>
    match w.wait with
    | some k =>
      match k.remaining with
      | i :: remaining =>
        some { w.setConnection i ((w.connection i).push .commit) with
          wait := some { k with remaining := remaining } }
      | [] => none
    | none => none
  | .ret =>
    match w.wait with
    | some k =>
      if k.promise then
        let w := { w with wait := none }
        some (if k.finishing then { w with manager := w.manager.finish_actions } else w)
      else none
    | none => none
  | .take i => (w.connection i).take.map fun r => w.progress i r
  | .answer i o => ((w.connection i).answer o).map fun r => w.progress i r
  | .manager .finish_actions => none
  | .manager a =>
    if w.wait.isNone || ofStream a then
      (w.manager.step outcome a).map fun m => { w with manager := m }
    else none

/-- Steps in any order. -/
def run : List (Act Q T n) → System Q T n → Option (System Q T n)
  | [], w => some w
  | a :: acts, w => (w.step outcome a).bind (run acts)

/-! ## What a commit says -/

/-- The slots that `clean` takes when `mysql::commit` returns to `_finish_actions`. -/
def counted (w : System Q T n) : List Slot :=
  (w.manager.base.fifo.timeline sql).takeWhile Prod.snd ++
    (w.manager.base.fifo.timeline storage).takeWhile Prod.snd

/-- What a commit that returns with no error says, and what `_finish_actions` counts. -/
structure Durable (w : System Q T n) : Prop where
  commit : ∀ k, w.wait = some k → k.promise = true → ¬ w.in_error →
    ∀ i ∈ k.targets, (w.connection i).Committed
  /-- No query of an event that is counted is lost, on any connection. -/
  counted : ∀ k, w.wait = some k → k.promise = true → k.finishing = true →
    ∀ slot ∈ w.counted, ∀ i, (w.connection i).CommittedFor slot.1

/-- `_finish_actions` waits for a commit. -/
def finishing (w : System Q T n) : Bool := w.wait.any Wait.finishing

/-- A step that does not lose an open transaction in silence, and with which `_finish_actions`
gets a commit that holds. -/
def Harmless (w : System Q T n) : Act Q T n → Prop
  | .take i => w.finishing = true → (w.connection i).tasks_list.head?.any Task.isCommit = true →
    (w.connection i).Intact
  | .answer i o =>
    ((w.connection i).error = false → (w.connection i).Exposed →
      (w.connection i).silent o = false) ∧
    (w.finishing = true → (w.connection i).Exposed → (w.connection i).failsCommit o = false)
  | _ => True

instance (w : System Q T n) : DecidablePred w.Harmless
  | .take _ => inferInstanceAs (Decidable (_ → _ → _))
  | .answer _ _ => inferInstanceAs (Decidable (_ ∧ _))
  | .run_query _ _ _ => isTrue trivial
  | .run_statement _ _ _ _ _ => isTrue trivial
  | .prepare_statement _ => isTrue trivial
  | .commit _ => isTrue trivial
  | .finish_actions => isTrue trivial
  | .push => isTrue trivial
  | .ret => isTrue trivial
  | .manager _ => isTrue trivial

/-- A run whose steps are all harmless. -/
def HarmlessRun : List (Act Q T n) → System Q T n → Prop
  | [], _ => True
  | a :: acts, w => w.Harmless a ∧ ∀ w' ∈ w.step outcome a, HarmlessRun acts w'

instance decidableHarmlessRun : (acts : List (Act Q T n)) → DecidablePred (HarmlessRun outcome acts)
  | [], _ => isTrue trivial
  | _ :: acts, _ =>
    have := decidableHarmlessRun acts
    inferInstanceAs (Decidable (_ ∧ _))

/-! ## The counter and the promise -/

/-- A connection that is no longer waited for. -/
structure Done (finishing : Bool) (c : Connection Q) : Prop where
  tasks : c.tasks_list = []
  idle : c.phase = .idle
  committed : c.error = false ∨ finishing = true → c.Committed

/-- The connections that `ko` counts. -/
def owed (k : Wait n) (connection : Fin n → Connection Q) : Finset (Fin n) :=
  Finset.univ.filter fun i => i ∈ k.remaining ∨ (connection i).owes = true

/-- What holds while a commit is waited for. -/
structure Waiting (k : Wait n) (connection : Fin n → Connection Q) : Prop where
  nodup : k.remaining.Nodup
  fresh : ∀ i ∈ k.remaining, (connection i).owes = false
  count : k.count = (owed k connection).card
  promise : k.promise = true → k.count = 0
  done : ∀ i ∈ k.targets, i ∉ owed k connection → Done k.finishing (connection i)
  all : k.finishing = true → ∀ i, i ∈ k.targets
  busy : k.finishing = true → ∀ i, (connection i).phase.isCommit = true → (connection i).Intact

/-- What harmless steps keep. -/
structure Inv (w : System Q T n) : Prop where
  wf : ∀ i, (w.connection i).Wf
  sound : ∀ i, (w.connection i).Sound
  free : w.wait = none → ∀ i, (w.connection i).owes = false
  waiting : ∀ k, w.wait = some k → Waiting k w.connection

theorem mem_owed {k : Wait n} {connection : Fin n → Connection Q} {i : Fin n} :
    i ∈ owed k connection ↔ i ∈ k.remaining ∨ (connection i).owes = true := by
  simp [owed]

section Waiting

variable {k : Wait n} {connection : Fin n → Connection Q} {i : Fin n} {c' : Connection Q} {b : Bool}

/-- Once the promise is set, nobody owes anything. -/
theorem Waiting.not_owed (h : Waiting k connection) (hpromise : k.promise = true) (i : Fin n) :
    i ∉ owed k connection := by
  have hcard : (owed k connection).card = 0 := h.count ▸ h.promise hpromise
  rw [Finset.card_eq_zero.mp hcard]
  exact Finset.notMem_empty i

/-- The start of a commit: each target is still to be given its task. -/
theorem Waiting.start (howes : ∀ i, (connection i).owes = false) {targets : List (Fin n)}
    (hnodup : targets.Nodup) {finishing : Bool} (hall : finishing = true → ∀ i, i ∈ targets) :
    Waiting ⟨targets, targets, targets.length, false, finishing⟩ connection where
  nodup := hnodup
  fresh i _ := howes i
  count := by
    show targets.length = _
    rw [← List.toFinset_card_of_nodup hnodup]
    refine congrArg Finset.card (Finset.ext fun i => ?_)
    rw [mem_owed, howes, List.mem_toFinset]
    simp
  promise h := absurd h nofun
  done i hi hnot := absurd (mem_owed.mpr (.inl hi)) hnot
  all := hall
  busy _ i hphase := by
    have hidle := (Bool.or_eq_false_iff.mp (howes i)).2
    rw [hphase] at hidle
    cases hidle

/-- A connection whose thread moves is still waited for, or was no target. -/
theorem Waiting.progress (h : Waiting k connection)
    (howes : (connection i).owes = (b || c'.owes))
    (hmoves : (connection i).tasks_list ≠ [] ∨ (connection i).phase ≠ .idle)
    (hdone : b = true → Done k.finishing c')
    (hbusy : k.finishing = true → c'.phase.isCommit = true → c'.Intact) :
    Waiting (if b then k.countDown else k) (Function.update connection i c') := by
  have hactive : i ∈ k.targets → i ∈ owed k connection := fun hi => by
    by_contra hnot
    have hstill := h.done i hi hnot
    exact hmoves.elim (fun hne => hne hstill.tasks) fun hne => hne hstill.idle
  have hother : ∀ j, j ≠ i → Function.update connection i c' j = connection j :=
    fun j hj => Function.update_of_ne hj _ _
  have hbusy' : k.finishing = true → ∀ j, (Function.update connection i c' j).phase.isCommit = true →
      (Function.update connection i c' j).Intact := by
    intro hfinishing j hphase
    by_cases hj : j = i
    · subst hj
      rw [Function.update_self] at hphase ⊢
      exact hbusy hfinishing hphase
    · rw [hother j hj] at hphase ⊢
      exact h.busy hfinishing j hphase
  cases b with
  | false =>
    have howed : owed k (Function.update connection i c') = owed k connection := by
      ext j
      rw [mem_owed, mem_owed]
      by_cases hj : j = i
      · subst hj
        rw [Function.update_self, howes, Bool.false_or]
      · rw [hother j hj]
    refine ⟨h.nodup, fun j hj => ?_, ?_, h.promise, fun j hj hnot => ?_, h.all, hbusy'⟩
    · by_cases hji : j = i
      · subst hji
        rw [Function.update_self]
        exact ((howes.trans (Bool.false_or _)).symm.trans (h.fresh j hj))
      · rw [hother j hji]
        exact h.fresh j hj
    · show k.count = (owed k _).card
      rw [howed]
      exact h.count
    · have hnot : j ∉ owed k connection := howed ▸ hnot
      have hj' : j ≠ i := fun hji => hnot (hji ▸ hactive (hji ▸ hj))
      rw [hother j hj']
      exact h.done j hj hnot
  | true =>
    have howes : (connection i).owes = true := howes
    have hc' : c'.owes = false := by
      have hstill := hdone rfl
      unfold Connection.owes
      rw [hstill.tasks, hstill.idle]
      rfl
    have hnotin : i ∉ k.remaining := fun hi => by
      rw [h.fresh i hi] at howes
      cases howes
    have howed : owed k (Function.update connection i c') = (owed k connection).erase i := by
      ext j
      rw [Finset.mem_erase, mem_owed, mem_owed]
      by_cases hj : j = i
      · subst hj
        simp [hc', hnotin]
      · rw [hother j hj]
        simp [hj]
    have hi : i ∈ owed k connection := mem_owed.mpr (.inr howes)
    have hcount : k.count - 1 = (owed k (Function.update connection i c')).card := by
      rw [howed, Finset.card_erase_of_mem hi, ← h.count]
    have hpos : 0 < k.count := by
      rw [h.count]
      exact Finset.card_pos.mpr ⟨i, hi⟩
    refine ⟨h.nodup, fun j hj => ?_, hcount, fun hpromise => ?_, fun j hj hnot => ?_, h.all, hbusy'⟩
    · have hji : j ≠ i := fun hji => hnotin (hji ▸ hj)
      rw [hother j hji]
      exact h.fresh j hj
    · show k.count - 1 = 0
      rcases Bool.or_eq_true_iff.mp hpromise with hpromise | hone
      · have hzero := h.promise hpromise
        omega
      · have hone : k.count = 1 := by simpa using hone
        omega
    · have hnot : j ∉ owed k (Function.update connection i c') := hnot
      by_cases hji : j = i
      · subst hji
        rw [Function.update_self]
        exact hdone rfl
      · rw [hother j hji]
        refine h.done j hj fun hmem => hnot ?_
        rw [howed]
        exact Finset.mem_erase.mpr ⟨hji, hmem⟩

end Waiting

/-! ## One step -/

section Steps

variable {w w' : System Q T n} {ack : Fin 2 → ℤ}

theorem inv_start (ack : Fin 2 → ℤ) : Inv (start ack : System Q T n) where
  wf _ := Connection.wf_new
  sound _ _ := Connection.intact_new
  free _ _ := rfl
  waiting _ h := absurd h nofun

/-- The caller, which waits for nothing, gives tasks that are no commits. -/
theorem Inv.give (h : Inv w) (hwait : w.wait = none) {connection : Fin n → Connection Q}
    (hgive : ∀ i, connection i = w.connection i ∨
      ∃ t : Task Q, t.isCommit = false ∧ connection i = (w.connection i).push t) :
    Inv { w with connection := connection } := by
  have hkeeps : ∀ i, (connection i).Wf ∧ (connection i).Sound ∧ (connection i).owes = false := by
    intro i
    have hfree := h.free hwait i
    rcases hgive i with heq | ⟨t, ht, heq⟩ <;> rw [heq]
    · exact ⟨h.wf i, h.sound i, hfree⟩
    · refine ⟨(h.wf i).push hfree t, (h.sound i).push t, ?_⟩
      obtain ⟨htasks, hphase⟩ := Bool.or_eq_false_iff.mp hfree
      show (((w.connection i).tasks_list ++ [t]).any Task.isCommit || _) = false
      rw [List.any_append, htasks, Bool.false_or, List.any_cons, ht]
      exact hphase
  refine ⟨fun i => (hkeeps i).1, fun i => (hkeeps i).2.1, fun _ i => (hkeeps i).2.2, fun k hk => ?_⟩
  rw [show w.wait = some k from hk] at hwait
  cases hwait

theorem Inv.give_one (h : Inv w) (hwait : w.wait = none) (i : Fin n) {t : Task Q}
    (ht : t.isCommit = false) : Inv (w.give i t) := by
  unfold System.give
  split
  · exact h
  · refine h.give hwait fun j => ?_
    by_cases hj : j = i
    · subst hj
      exact .inr ⟨t, ht, Function.update_self ..⟩
    · exact .inl (Function.update_of_ne hj _ _)

theorem Inv.wait_commit (h : Inv w) (hwait : w.wait = none) {targets : List (Fin n)}
    (hnodup : targets.Nodup) {finishing : Bool} (hall : finishing = true → ∀ i, i ∈ targets) :
    Inv (w.wait_commit targets finishing) where
  wf := h.wf
  sound := h.sound
  free hnone := absurd hnone nofun
  waiting k hk := by
    cases hk
    exact Waiting.start (h.free hwait) hnodup hall

/-- A commit is given to the next connection, which was counted already. -/
theorem Inv.push (h : Inv w) {k : Wait n} (hk : w.wait = some k) {i : Fin n}
    {remaining : List (Fin n)} (hremaining : k.remaining = i :: remaining) :
    Inv { w.setConnection i ((w.connection i).push .commit) with
      wait := some { k with remaining := remaining } } := by
  have hwaiting := h.waiting k hk
  have hfree := hwaiting.fresh i (hremaining ▸ List.mem_cons_self)
  obtain ⟨hnotin, hnodup⟩ := List.nodup_cons.mp (hremaining ▸ hwaiting.nodup)
  have hpush : ((w.connection i).push .commit).owes = true := by
    show (((w.connection i).tasks_list ++ [Task.commit]).any Task.isCommit || _) = true
    rw [List.any_append]
    simp [Task.isCommit]
  have hother : ∀ j, j ≠ i →
      Function.update w.connection i ((w.connection i).push .commit) j = w.connection j :=
    fun j hj => Function.update_of_ne hj _ _
  have howed : owed { k with remaining := remaining }
      (Function.update w.connection i ((w.connection i).push .commit)) = owed k w.connection := by
    ext j
    rw [mem_owed, mem_owed, hremaining]
    by_cases hj : j = i
    · subst hj
      rw [Function.update_self]
      simp [hpush]
    · rw [hother j hj]
      simp [hj]
  refine ⟨fun j => ?_, fun j => ?_, fun hnone => (by cases hnone), fun k' hk' => ?_⟩
  · show (Function.update w.connection i _ j).Wf
    by_cases hj : j = i
    · subst hj
      rw [Function.update_self]
      exact (h.wf j).push hfree _
    · rw [hother j hj]
      exact h.wf j
  · show (Function.update w.connection i _ j).Sound
    by_cases hj : j = i
    · subst hj
      rw [Function.update_self]
      exact (h.sound j).push _
    · rw [hother j hj]
      exact h.sound j
  · cases hk'
    refine ⟨hnodup, fun j hj => ?_, hwaiting.count.trans (congrArg Finset.card howed.symm),
      hwaiting.promise, fun j hj hnot => ?_, hwaiting.all, fun hfinishing j hphase => ?_⟩
    · have hji : j ≠ i := fun hji => hnotin (hji ▸ hj)
      show (Function.update w.connection i _ j).owes = false
      rw [hother j hji]
      exact hwaiting.fresh j (hremaining ▸ List.mem_cons_of_mem i hj)
    · have hnot : j ∉ owed k w.connection := howed ▸ hnot
      have hji : j ≠ i := fun hji => hnot
        (mem_owed.mpr (.inl (hremaining ▸ hji ▸ List.mem_cons_self)))
      show Done k.finishing (Function.update w.connection i _ j)
      rw [hother j hji]
      exact hwaiting.done j hj hnot
    · have hphase : (Function.update w.connection i ((w.connection i).push .commit) j).phase.isCommit
        = true := hphase
      show (Function.update w.connection i _ j).Intact
      by_cases hj : j = i
      · subst hj
        rw [Function.update_self] at hphase ⊢
        exact hwaiting.busy hfinishing j hphase
      · rw [hother j hj] at hphase ⊢
        exact hwaiting.busy hfinishing j hphase

/-- The promise is set: nobody owes anything. -/
theorem Inv.ret (h : Inv w) {k : Wait n} (hk : w.wait = some k) (hpromise : k.promise = true) :
    Inv { w with wait := none } where
  wf := h.wf
  sound := h.sound
  free _ i := by
    have hnot := (h.waiting k hk).not_owed hpromise i
    rw [mem_owed, not_or, Bool.not_eq_true] at hnot
    exact hnot.2
  waiting _ hnone := absurd hnone nofun

theorem finishing_of {k : Wait n} (hk : w.wait = some k) (hfinishing : k.finishing = true) :
    w.finishing = true := by
  unfold finishing
  rw [hk]
  exact hfinishing

theorem Inv.of_manager (h : Inv w) (m : Manager T) : Inv { w with manager := m } :=
  ⟨h.wf, h.sound, h.free, h.waiting⟩

/-- The thread of a connection moves. -/
theorem Inv.progress (h : Inv w) {i : Fin n} {c' : Connection Q} {b : Bool}
    (howes : (w.connection i).owes = (b || c'.owes))
    (hmoves : (w.connection i).tasks_list ≠ [] ∨ (w.connection i).phase ≠ .idle)
    (hwf : c'.Wf) (hsound : c'.Sound)
    (hdone : b = true → ∀ k, w.wait = some k → Done k.finishing c')
    (hbusy : ∀ k, w.wait = some k → k.finishing = true → c'.phase.isCommit = true → c'.Intact) :
    Inv (w.progress i (c', b)) := by
  have hconnection : (w.progress i (c', b)).connection = Function.update w.connection i c' := by
    cases b <;> rfl
  have hwait : (w.progress i (c', b)).wait =
      w.wait.map fun k => if b then k.countDown else k := by
    cases b
    · show w.wait = w.wait.map id
      rw [Option.map_id, id]
    · rfl
  refine ⟨fun j => ?_, fun j => ?_, fun hend j => ?_, fun k hk => ?_⟩
  · rw [hconnection]
    by_cases hj : j = i
    · subst hj
      rwa [Function.update_self]
    · rw [Function.update_of_ne hj]
      exact h.wf j
  · rw [hconnection]
    by_cases hj : j = i
    · subst hj
      rwa [Function.update_self]
    · rw [Function.update_of_ne hj]
      exact h.sound j
  · have hnone : w.wait = none := Option.map_eq_none_iff.mp (hwait ▸ hend)
    rw [hconnection]
    by_cases hj : j = i
    · subst hj
      rw [Function.update_self]
      rw [h.free hnone j] at howes
      exact (Bool.or_eq_false_iff.mp howes.symm).2
    · rw [Function.update_of_ne hj]
      exact h.free hnone j
  · rw [hwait, Option.map_eq_some_iff] at hk
    obtain ⟨k₀, hk₀, rfl⟩ := hk
    rw [hconnection]
    exact (h.waiting k₀ hk₀).progress howes hmoves (fun hb => hdone hb k₀ hk₀) (hbusy k₀ hk₀)

theorem Inv.take (h : Inv w) {i : Fin n} (ha : w.Harmless (.take i)) {c' : Connection Q} {b : Bool}
    (hstep : (w.connection i).take = some (c', b)) : Inv (w.progress i (c', b)) := by
  obtain ⟨hidle, t, tasks, htasks, hprocess⟩ := Connection.take_cases hstep
  have hwf := (h.wf i).take hstep
  have hsound := (h.sound i).take hstep
  have hmoves : (w.connection i).tasks_list ≠ [] := by
    rw [htasks]
    exact List.cons_ne_nil t tasks
  -- a commit is taken, and the log is what it was
  have hcommit : t.isCommit = true → c'.log = (w.connection i).log ∧
      ∀ k, w.wait = some k → k.finishing = true → (w.connection i).Intact := by
    intro ht
    cases t with
    | commit =>
      refine ⟨?_, fun k hk hfinishing => ha (finishing_of hk hfinishing) (by rw [htasks]; rfl)⟩
      simp only [Connection.process] at hprocess
      split at hprocess <;> cases hprocess <;> rfl
    | _ => cases ht
  refine h.progress (Connection.owes_take hstep) (.inl hmoves) hwf hsound (fun hb k hk => ?_)
    fun k hk hfinishing hphase => ?_
  · subst hb
    obtain ⟨htasks', hidle', hneed, hlog⟩ := (h.wf i).idle_of_take hstep
    have ht := Connection.isCommit_of_process hidle hprocess (.inl rfl)
    refine ⟨htasks', hidle', fun hor => hwf.committed htasks' hidle' ?_ (hwf.not_exposed hneed)⟩
    rcases hor with herror | hfinishing
    · exact hsound herror
    · intro en hen
      rw [hlog] at hen
      exact (hcommit ht).2 k hk hfinishing en hen
  · have ht := Connection.isCommit_of_process hidle hprocess (.inr hphase)
    intro en hen
    rw [(hcommit ht).1] at hen
    exact (hcommit ht).2 k hk hfinishing en hen

theorem Inv.answer (h : Inv w) {i : Fin n} {o : Outcome} (ha : w.Harmless (.answer i o))
    {c' : Connection Q} {b : Bool} (hstep : (w.connection i).answer o = some (c', b)) :
    Inv (w.progress i (c', b)) := by
  have hwf := (h.wf i).answer hstep
  have hsound := (h.sound i).answer hstep ha.1
  have hcalls : (w.connection i).phase ≠ .idle := fun hidle => by
    unfold Connection.answer at hstep
    rw [hidle] at hstep
    cases hstep
  refine h.progress (Connection.owes_answer hstep) (.inr hcalls) hwf hsound (fun hb k hk => ?_)
    fun k hk hfinishing hphase => ?_
  · subst hb
    obtain ⟨htasks, hidle⟩ := (h.wf i).idle_of_answer hstep
    refine ⟨htasks, hidle, fun hor => ?_⟩
    rcases hor with herror | hfinishing
    · exact hwf.committed htasks hidle (hsound herror) (Connection.not_exposed_of_error hstep herror)
    · have hcommit : (w.connection i).phase.isCommit = true := by
        rw [(Connection.answer_frame hstep).2, Bool.true_or]
      have hintact := (h.waiting k hk).busy hfinishing i hcommit
      obtain ⟨hintact', hsafe⟩ :=
        hintact.answer hcommit hstep (ha.2 (finishing_of hk hfinishing))
      exact hwf.committed htasks hidle hintact' (hsafe rfl)
  · have hcommit : (w.connection i).phase.isCommit = true := by
      rw [(Connection.answer_frame hstep).2, hphase, Bool.or_true]
    have hintact := (h.waiting k hk).busy hfinishing i hcommit
    exact (hintact.answer hcommit hstep (ha.2 (finishing_of hk hfinishing))).1

theorem Inv.step (h : Inv w) {a : Act Q T n} (ha : w.Harmless a)
    (hstep : w.step outcome a = some w') : Inv w' := by
  cases a with
  | run_query i r s | run_statement i r id bind s =>
    simp only [System.step] at hstep
    split at hstep
    · rename_i hwait
      cases hstep
      exact h.give_one (Option.isNone_iff_eq_none.mp hwait) i rfl
    · cases hstep
  | prepare_statement id =>
    simp only [System.step] at hstep
    split at hstep
    · rename_i hwait
      cases hstep
      split
      · exact h
      · exact h.give (Option.isNone_iff_eq_none.mp hwait) fun i => .inr ⟨_, rfl, rfl⟩
    · cases hstep
  | commit thread_id =>
    cases thread_id with
    | none =>
      simp only [System.step] at hstep
      split at hstep
      · rename_i hwait
        cases hstep
        exact h.wait_commit (Option.isNone_iff_eq_none.mp hwait) (List.nodup_finRange n) nofun
      · cases hstep
    | some i =>
      simp only [System.step] at hstep
      split at hstep
      · rename_i hwait
        cases hstep
        exact h.wait_commit (Option.isNone_iff_eq_none.mp hwait) (List.nodup_singleton i) nofun
      · cases hstep
  | finish_actions =>
    simp only [System.step] at hstep
    split at hstep
    · rename_i hwait
      cases hstep
      rw [Bool.and_eq_true] at hwait
      exact h.wait_commit (Option.isNone_iff_eq_none.mp hwait.1) (List.nodup_finRange n)
        fun _ => List.mem_finRange
    · cases hstep
  | push =>
    simp only [System.step] at hstep
    split at hstep
    · rename_i k hk
      split at hstep
      · rename_i i remaining hremaining
        cases hstep
        exact h.push hk hremaining
      · cases hstep
    · cases hstep
  | ret =>
    simp only [System.step] at hstep
    split at hstep
    · rename_i k hk
      split at hstep
      · rename_i hpromise
        cases hstep
        split
        · exact (h.ret hk hpromise).of_manager _
        · exact h.ret hk hpromise
      · cases hstep
    · cases hstep
  | take i =>
    simp only [System.step, Option.map_eq_some_iff] at hstep
    obtain ⟨⟨c', b⟩, htake, rfl⟩ := hstep
    exact h.take ha htake
  | answer i o =>
    simp only [System.step, Option.map_eq_some_iff] at hstep
    obtain ⟨⟨c', b⟩, hanswer, rfl⟩ := hstep
    exact h.answer ha hanswer
  | manager a =>
    cases a with
    | finish_actions => cases hstep
    | _ =>
      simp only [System.step] at hstep
      split at hstep
      · obtain ⟨m, -, rfl⟩ := Option.map_eq_some_iff.mp hstep
        exact h.of_manager m
      · cases hstep

/-! ## Every run -/

theorem Inv.run (acts : List (Act Q T n)) (h : Inv w) (hharmless : HarmlessRun outcome acts w)
    (hrun : w.run outcome acts = some w') : Inv w' := by
  induction acts generalizing w with
  | nil =>
    cases hrun
    exact h
  | cons a acts ih =>
    obtain ⟨w₁, hstep, hrun⟩ := Option.bind_eq_some_iff.mp hrun
    exact ih (h.step outcome hharmless.1 hstep) (hharmless.2 w₁ hstep) hrun

theorem Inv.durable (h : Inv w) : w.Durable where
  commit k hk hpromise herror i hi := by
    have hwaiting := h.waiting k hk
    refine (hwaiting.done i hi (hwaiting.not_owed hpromise i)).committed (.inl ?_)
    exact Bool.eq_false_iff.mpr fun hi => herror ⟨i, hi⟩
  counted k hk hpromise hfinishing slot _ i := by
    have hwaiting := h.waiting k hk
    have hdone := hwaiting.done i (hwaiting.all hfinishing i) (hwaiting.not_owed hpromise i)
    exact (hdone.committed (.inr hfinishing)).for slot.1

/-- Where the steps are harmless, a commit that returns with no error has committed all that
went well, and so has each commit of `_finish_actions`. -/
theorem run_durable (ack : Fin 2 → ℤ) (acts : List (Act Q T n))
    (hharmless : HarmlessRun outcome acts (start ack)) (hrun : (start ack).run outcome acts = some w) :
    w.Durable :=
  ((inv_start ack).run outcome acts hharmless hrun).durable

/-- Two statements of one event on one connection, and `_finish_actions`. The second statement
meets a deadlock, and is tried again. -/
def twoStatements (first : List (Act ℕ Unit 1)) : List (Act ℕ Unit 1) :=
  [.prepare_statement 1, .take 0, .answer 0 .ok,
    .manager (.send_event sql () 7), .manager .first_events] ++ first ++
  [.run_statement 0 (.log true) 1 true ⟨12, 7⟩, .take 0, .answer 0 .ok, .answer 0 .deadlock,
    .answer 0 .ok, .answer 0 .ok,
    .manager .handle, .finish_actions, .push, .take 0, .answer 0 .ok]

/-- Alone in its transaction, the statement that meets the deadlock is the only one rolled back. -/
theorem run_durable_retried : ∃ w : System ℕ Unit 1,
    (start fun _ => 0).run (fun _ => .processed) (twoStatements []) = some w ∧
      w.counted = [(7, true)] ∧ w.Durable :=
  ⟨_, rfl, rfl, run_durable (fun _ => .processed) (fun _ => 0) (twoStatements []) (by decide) rfl⟩

/-- The first statement was in the transaction that the deadlock rolled back. The commit returns
with no error, and the event is counted. -/
theorem not_durable : ¬ ∀ (outcome : Element Unit 2 → Storage.Outcome) (ack : Fin 2 → ℤ)
    (acts : List (Act ℕ Unit 1)) (w : System ℕ Unit 1),
    (start ack).run outcome acts = some w → w.Durable := by
  intro h
  have hdurable := h (fun _ => .processed) (fun _ => 0)
    (twoStatements [.run_statement 0 (.log true) 1 true ⟨11, 7⟩, .take 0, .answer 0 .ok,
      .answer 0 .ok]) _ rfl
  have hcommitted := hdurable.commit _ rfl rfl (by decide) 0 (by decide)
  exact absurd (hcommitted.durable ⟨⟨11, 7⟩, .lost, false⟩ (by decide) rfl) nofun

end Steps

end System

end CentreonBroker.Mysql
