import CentreonBroker.Tcp.Connection
import Mathlib.Tactic.SplitIfs

/-!
# Order, acknowledgements and wake-ups

`_writing` is a token: while it is set, there is one task, or one call to `async_write`, or the
caller is about to post a task. So nothing is sent twice or out of order, and no acknowledgement
is lost.

The token is given back after the queues were found empty. What `write` pushes in between is
not seen by the task, and `write` does not start another one if it reads `_writing` before it is
reset. Where this does not happen, nothing is left unsent.
-/

namespace CentreonBroker.Tcp

/-- The caller took the token, or is about to. -/
def Caller.claims {V : Type} : Caller V → Bool
  | .set => true
  | .post => true
  | .flushSet _ => true
  | .flushPost _ => true
  | _ => false

/-- The caller holds the token, and is to post a task. -/
def Caller.posting {V : Type} : Caller V → Bool
  | .post => true
  | .flushPost _ => true
  | _ => false

/-- What the caller knows of `_acks`. -/
def Caller.Holds {V : Type} (acks : ℤ) : Caller V → Prop
  | .sub retval => 0 ≤ retval ∧ retval ≤ acks
  | .flushTest retval => 0 ≤ retval ∧ retval ≤ acks
  | .flushSub retval => 0 ≤ retval ∧ retval ≤ acks
  | .flushEvents retval => retval = 0
  | .flushWriting retval => retval = 0
  | .flushSet retval => retval = 0
  | .flushPost retval => retval = 0
  | _ => True

theorem Caller.posting_of_claims {V : Type} {p : Caller V} (h : p.claims = false) :
    p.posting = false := by
  cases p <;> first | rfl | cases h

theorem Caller.Holds.mono {V : Type} {p : Caller V} {a b : ℤ} (h : p.Holds a) (hab : a ≤ b) :
    p.Holds b := by
  cases p with
  | sub retval => exact ⟨h.1, Int.le_trans h.2 hab⟩
  | flushTest retval => exact ⟨h.1, Int.le_trans h.2 hab⟩
  | flushSub retval => exact ⟨h.1, Int.le_trans h.2 hab⟩
  | _ => exact h

/-- What a task knows of its queue and of `_write_queue_has_events`. -/
def Task.Fits {V : Type} (queue : List V) (events : Bool) : Task → Prop
  | .start => queue = [] ∧ events = false
  | .swap => queue = [] ∧ events = false
  | .test => events = !queue.isEmpty
  | .reset => queue = [] ∧ events = false
  | .send => queue ≠ [] ∧ events = true
  | .ack => queue ≠ [] ∧ events = true
  | .pop => queue ≠ [] ∧ events = true
  | .again => events = !queue.isEmpty
  | .next => queue ≠ [] ∧ events = true

/-- What of the queue was not handed to `async_write`. -/
def Task.rest {V : Type} (queue : List V) : Task → List V
  | .ack => queue.tail
  | .pop => queue.tail
  | _ => queue

/-- The caller pushed a vector, and did not see that somebody is at work. -/
def Caller.waking {V : Type} : Caller V → Bool
  | .test => true
  | .set => true
  | .post => true
  | _ => false

/-- The caller is to read `_writing`, in `write`. -/
def Caller.isTest {V : Type} : Caller V → Bool
  | .test => true
  | _ => false

/-- The task found both queues empty, and will give the token back. -/
def Task.leaves (events : Bool) : Task → Bool
  | .test => !events
  | .reset => true
  | _ => false

namespace Connection

variable {V : Type} {c c' : Connection V}

/-- Who has the token. -/
inductive Token (c : Connection V) : Prop
  | nobody (tasks : c.tasks = []) (sending : c.sending = []) (writing : c.writing = false)
      (caller : c.caller.posting = false) (queue : c.write_queue = [])
      (events : c.write_queue_has_events = false)
      (order : c.written = c.handed ++ c.exposed_write_queue)
  | caller (tasks : c.tasks = []) (sending : c.sending = []) (writing : c.writing = true)
      (caller : c.caller.posting = true) (queue : c.write_queue = [])
      (events : c.write_queue_has_events = false)
      (order : c.written = c.handed ++ c.exposed_write_queue)
  | task (t : Task) (tasks : c.tasks = [t]) (sending : c.sending = []) (writing : c.writing = true)
      (caller : c.caller.claims = false) (fits : t.Fits c.write_queue c.write_queue_has_events)
      (order : c.written = c.handed ++ t.rest c.write_queue ++ c.exposed_write_queue)
  | socket (v : V) (tasks : c.tasks = []) (sending : c.sending = [v]) (writing : c.writing = true)
      (caller : c.caller.claims = false) (queue : c.write_queue ≠ [])
      (events : c.write_queue_has_events = true)
      (order : c.written = c.handed ++ c.write_queue.tail ++ c.exposed_write_queue)

/-- What every step keeps. -/
structure Inv (c : Connection V) : Prop where
  token : Token c
  nonneg : 0 ≤ c.acks
  holds : c.caller.Holds c.acks
  kept : c.returned + c.acks + c.tasks.count .ack = c.completed

theorem inv_new : Inv (new : Connection V) :=
  ⟨.nobody rfl rfl rfl rfl rfl rfl rfl, le_refl 0, trivial, rfl⟩

/-! ## The caller -/

variable {p : Caller V}

/-- The caller goes on, and neither takes the token nor gives it. -/
theorem Token.move (h : Token c) (acks returned : ℤ)
    (hold : c.caller.claims = false) (hnew : p.claims = false) :
    Token { c with caller := p, acks := acks, returned := returned } := by
  cases h with
  | nobody tasks sending writing _ queue events order =>
    exact .nobody tasks sending writing (Caller.posting_of_claims hnew) queue events order
  | caller _ _ _ caller => rw [Caller.posting_of_claims hold] at caller; cases caller
  | task t tasks sending writing _ fits order => exact .task t tasks sending writing hnew fits order
  | socket v tasks sending writing _ queue events order =>
    exact .socket v tasks sending writing hnew queue events order

/-- The caller read that nobody has the token, and will take it. -/
theorem Token.claim (h : Token c) (hwriting : c.writing = false)
    (hp : p.posting = false) : Token { c with caller := p } := by
  cases h with
  | nobody tasks sending writing _ queue events order =>
    exact .nobody tasks sending writing hp queue events order
  | caller _ _ writing => rw [hwriting] at writing; cases writing
  | task _ _ _ writing => rw [hwriting] at writing; cases writing
  | socket _ _ _ writing => rw [hwriting] at writing; cases writing

/-- The caller takes the token. -/
theorem Token.set (h : Token c) (hold : c.caller.claims = true)
    (hnot : c.caller.posting = false) (hnew : p.posting = true) :
    Token { c with writing := true, caller := p } := by
  cases h with
  | nobody tasks sending _ _ queue events order => exact .caller tasks sending rfl hnew queue events order
  | caller _ _ _ caller => rw [hnot] at caller; cases caller
  | task _ _ _ _ caller => rw [hold] at caller; cases caller
  | socket _ _ _ _ caller => rw [hold] at caller; cases caller

/-- The caller posts a task. -/
theorem Token.post (h : Token c) (returned : ℤ) (hold : c.caller.posting = true)
    (hnew : p.claims = false) :
    Token { c with tasks := c.tasks ++ [.start], caller := p, returned := returned } := by
  have hclaims : c.caller.claims = true := by
    cases hcaller : c.caller <;> rw [hcaller] at hold <;> first | rfl | cases hold
  cases h with
  | nobody _ _ _ caller => rw [hold] at caller; cases caller
  | caller tasks sending writing _ queue events order =>
    refine .task .start ?_ sending writing hnew ⟨queue, events⟩ ?_
    · show c.tasks ++ [.start] = _
      rw [tasks]
      rfl
    · show c.written = c.handed ++ c.write_queue ++ _
      rw [queue, List.append_nil]
      exact order
  | task _ _ _ _ caller => rw [hclaims] at caller; cases caller
  | socket _ _ _ _ caller => rw [hclaims] at caller; cases caller

/-- A vector is pushed. -/
theorem Token.push (h : Token c) {v : V} (hold : c.caller.claims = false)
    (hnew : p.claims = false) :
    Token { c with
      exposed_write_queue := c.exposed_write_queue ++ [v], written := c.written ++ [v]
      caller := p } := by
  cases h with
  | nobody tasks sending writing _ queue events order =>
    refine .nobody tasks sending writing (Caller.posting_of_claims hnew) queue events ?_
    show c.written ++ [v] = c.handed ++ (c.exposed_write_queue ++ [v])
    rw [order, List.append_assoc]
  | caller _ _ _ caller => rw [Caller.posting_of_claims hold] at caller; cases caller
  | task t tasks sending writing _ fits order =>
    refine .task t tasks sending writing hnew fits ?_
    show c.written ++ [v] = c.handed ++ t.rest c.write_queue ++ (c.exposed_write_queue ++ [v])
    rw [order, ← List.append_assoc]
  | socket w tasks sending writing _ queue events order =>
    refine .socket w tasks sending writing hnew queue events ?_
    show c.written ++ [v] = c.handed ++ c.write_queue.tail ++ (c.exposed_write_queue ++ [v])
    rw [order, ← List.append_assoc]

theorem Inv.callerStep (h : Inv c) (hstep : c.callerStep = some c') : Inv c' := by
  have hholds := h.holds
  have hkept := h.kept
  have hnonneg := h.nonneg
  unfold Connection.callerStep at hstep
  cases hcaller : c.caller with rw [hcaller] at hstep hholds
  | idle => cases hstep
  | push v =>
    cases hstep
    exact ⟨h.token.push (by rw [hcaller]; rfl) rfl, hnonneg, trivial, hkept⟩
  | test =>
    cases hstep
    by_cases hwriting : c.writing = true
    · rw [if_pos hwriting]
      exact ⟨h.token.move c.acks c.returned (by rw [hcaller]; rfl) rfl, hnonneg, trivial, hkept⟩
    · rw [if_neg hwriting]
      exact ⟨h.token.claim (Bool.eq_false_iff.mpr hwriting) rfl, hnonneg, trivial, hkept⟩
  | set =>
    cases hstep
    exact ⟨h.token.set (by rw [hcaller]; rfl) (by rw [hcaller]; rfl) rfl, hnonneg, trivial, hkept⟩
  | post =>
    cases hstep
    refine ⟨h.token.post c.returned (by rw [hcaller]; rfl) rfl, hnonneg, trivial, ?_⟩
    show c.returned + c.acks + ((c.tasks ++ [Task.start]).count .ack : ℕ) = c.completed
    rw [List.count_append]
    exact hkept
  | load | flushLoad =>
    cases hstep
    exact ⟨h.token.move c.acks c.returned (by rw [hcaller]; rfl) rfl, hnonneg, ⟨hnonneg, le_refl _⟩, hkept⟩
  | sub retval | flushSub retval =>
    cases hstep
    obtain ⟨hlow, hhigh⟩ := hholds
    refine ⟨h.token.move (c.acks - retval) (c.returned + retval) (by rw [hcaller]; rfl) rfl, ?_,
      trivial, ?_⟩
    · show 0 ≤ c.acks - retval
      omega
    · show c.returned + retval + (c.acks - retval) + (c.tasks.count .ack : ℕ) = c.completed
      omega
  | flushTest retval =>
    cases hstep
    obtain ⟨hlow, hhigh⟩ := hholds
    by_cases hacks : c.acks ≠ 0
    · rw [if_pos hacks]
      exact ⟨h.token.move c.acks c.returned (by rw [hcaller]; rfl) rfl, hnonneg, ⟨hlow, hhigh⟩, hkept⟩
    · rw [if_neg hacks]
      refine ⟨h.token.move c.acks c.returned (by rw [hcaller]; rfl) rfl, hnonneg, ?_, hkept⟩
      show retval = 0
      omega
  | flushEvents retval =>
    cases hstep
    have hzero : retval = 0 := hholds
    split
    · exact ⟨h.token.move c.acks c.returned (by rw [hcaller]; rfl) rfl, hnonneg, hholds, hkept⟩
    · refine ⟨h.token.move c.acks (c.returned + retval) (by rw [hcaller]; rfl) rfl, hnonneg, trivial, ?_⟩
      show c.returned + retval + c.acks + (c.tasks.count .ack : ℕ) = c.completed
      omega
  | flushWriting retval =>
    cases hstep
    have hzero : retval = 0 := hholds
    by_cases hwriting : c.writing = true
    · rw [if_pos hwriting]
      refine ⟨h.token.move c.acks (c.returned + retval) (by rw [hcaller]; rfl) rfl, hnonneg, trivial, ?_⟩
      show c.returned + retval + c.acks + (c.tasks.count .ack : ℕ) = c.completed
      omega
    · rw [if_neg hwriting]
      exact ⟨h.token.claim (Bool.eq_false_iff.mpr hwriting) rfl, hnonneg, hholds, hkept⟩
  | flushSet retval =>
    cases hstep
    exact ⟨h.token.set (by rw [hcaller]; rfl) (by rw [hcaller]; rfl) rfl, hnonneg, hholds, hkept⟩
  | flushPost retval =>
    cases hstep
    have hzero : retval = 0 := hholds
    refine ⟨h.token.post (c.returned + retval) (by rw [hcaller]; rfl) rfl, hnonneg, trivial, ?_⟩
    show c.returned + retval + c.acks + ((c.tasks ++ [Task.start]).count .ack : ℕ) = c.completed
    rw [List.count_append, hzero, Int.add_zero]
    exact hkept

/-! ## The tasks and the socket -/

variable {t : Task}

/-- The only task calls `async_write`. -/
theorem Inv.asyncWrite (h : Inv c) (htasks : c.tasks = [t]) (hsending : c.sending = [])
    (hwriting : c.writing = true) (hcaller : c.caller.claims = false) (hne : c.write_queue ≠ [])
    (hevents : c.write_queue_has_events = true) (ht : t ≠ .ack)
    (horder : c.written = c.handed ++ c.write_queue ++ c.exposed_write_queue)
    (hstep : c.asyncWrite 0 = some c') : Inv c' := by
  have hkept := h.kept
  unfold Connection.asyncWrite at hstep
  split at hstep
  · cases hstep
  · rename_i v queue hqueue
    cases hstep
    refine ⟨.socket v ?_ ?_ hwriting hcaller hne hevents ?_, h.nonneg, h.holds, ?_⟩
    · show c.tasks.eraseIdx 0 = []
      rw [htasks]
      rfl
    · show c.sending ++ [v] = [v]
      rw [hsending]
      rfl
    · show c.written = c.handed ++ [v] ++ c.write_queue.tail ++ _
      rw [horder, hqueue, List.append_assoc c.handed [v]]
      rfl
    · show c.returned + c.acks + ((c.tasks.eraseIdx 0).count .ack : ℕ) = c.completed
      rw [htasks, List.count_singleton, if_neg (by simpa using ht)] at hkept
      rw [htasks]
      exact hkept

/-- The only task goes on to something else. -/
theorem Inv.goOn (h : Inv c) (t' : Task) (htasks : c.tasks = [t]) (hsending : c.sending = [])
    (hwriting : c.writing = true) (hcaller : c.caller.claims = false)
    (hfits : t'.Fits c.write_queue c.write_queue_has_events)
    (horder : c.written = c.handed ++ t'.rest c.write_queue ++ c.exposed_write_queue)
    (ht : t ≠ .ack) (ht' : t' ≠ .ack) : Inv { c with tasks := c.tasks.set 0 t' } := by
  have hkept := h.kept
  refine ⟨.task t' ?_ hsending hwriting hcaller hfits horder, h.nonneg, h.holds, ?_⟩
  · show c.tasks.set 0 t' = [t']
    rw [htasks]
    rfl
  · show c.returned + c.acks + ((c.tasks.set 0 t').count .ack : ℕ) = c.completed
    rw [htasks, List.count_singleton, if_neg (by simpa using ht)] at hkept
    rw [htasks, List.set_cons_zero, List.count_singleton, if_neg (by simpa using ht')]
    exact hkept

variable {events : Bool}

theorem ne_nil_of_events {queue : List V} (h : events = !queue.isEmpty)
    (hevents : events = true) : queue ≠ [] := by
  rintro rfl
  rw [hevents] at h
  cases h

theorem eq_nil_of_events {queue : List V} (h : events = !queue.isEmpty)
    (hevents : events = false) : queue = [] := by
  cases queue with
  | nil => rfl
  | cons v queue =>
    rw [hevents] at h
    cases h

variable {k : ℕ}

/-- There is one task if there is any. -/
theorem Token.of_task (h : Token c) (ht : c.tasks[k]? = some t) :
    k = 0 ∧ c.tasks = [t] ∧ c.sending = [] ∧ c.writing = true ∧ c.caller.claims = false ∧
      t.Fits c.write_queue c.write_queue_has_events ∧
      c.written = c.handed ++ t.rest c.write_queue ++ c.exposed_write_queue := by
  cases h with
  | nobody tasks => rw [tasks] at ht; cases ht
  | caller tasks => rw [tasks] at ht; cases ht
  | task t' tasks sending writing caller fits order =>
    rw [tasks] at ht
    cases k with
    | zero =>
      obtain rfl : t' = t := Option.some.inj ht
      exact ⟨rfl, tasks, sending, writing, caller, fits, order⟩
    | succ k => cases ht
  | socket _ tasks => rw [tasks] at ht; cases ht

theorem Inv.taskStep (h : Inv c) (ht : c.tasks[k]? = some t)
    (hstep : c.taskStep k t = some c') : Inv c' := by
  obtain ⟨rfl, htasks, hsending, hwriting, hcaller, hfits, horder⟩ := h.token.of_task ht
  have hkept := h.kept
  rw [htasks] at hkept
  cases t with
  | start =>
    cases hstep
    obtain ⟨hqueue, hevents⟩ := hfits
    rw [if_neg (by rw [hevents]; exact Bool.false_ne_true)]
    exact h.goOn .swap htasks hsending hwriting hcaller ⟨hqueue, hevents⟩ horder nofun nofun
  | swap =>
    cases hstep
    obtain ⟨hqueue, hevents⟩ := hfits
    refine ⟨.task .test ?_ hsending hwriting hcaller rfl ?_, h.nonneg, h.holds, ?_⟩
    · show c.tasks.set 0 .test = [.test]
      rw [htasks]
      rfl
    · show c.written = c.handed ++ c.exposed_write_queue ++ c.write_queue
      rw [horder]
      show c.handed ++ c.write_queue ++ _ = _
      rw [hqueue, List.append_nil, List.append_nil]
    · show c.returned + c.acks + ((c.tasks.set 0 .test).count .ack : ℕ) = c.completed
      rw [htasks]
      exact hkept
  | test =>
    cases hstep
    by_cases hevents : c.write_queue_has_events = true
    · rw [if_pos hevents]
      exact h.goOn .send htasks hsending hwriting hcaller ⟨ne_nil_of_events hfits hevents, hevents⟩
        horder nofun nofun
    · rw [if_neg hevents]
      have hevents := Bool.eq_false_iff.mpr hevents
      exact h.goOn .reset htasks hsending hwriting hcaller ⟨eq_nil_of_events hfits hevents, hevents⟩
        horder nofun nofun
  | reset =>
    cases hstep
    obtain ⟨hqueue, hevents⟩ := hfits
    refine ⟨.nobody ?_ hsending rfl (Caller.posting_of_claims hcaller) hqueue hevents ?_, h.nonneg,
      h.holds, ?_⟩
    · show c.tasks.eraseIdx 0 = []
      rw [htasks]
      rfl
    · show c.written = c.handed ++ c.exposed_write_queue
      rw [horder]
      show c.handed ++ c.write_queue ++ _ = _
      rw [hqueue, List.append_nil]
    · show c.returned + c.acks + ((c.tasks.eraseIdx 0).count .ack : ℕ) = c.completed
      rw [htasks]
      exact hkept
  | send | next =>
    obtain ⟨hne, hevents⟩ := hfits
    exact h.asyncWrite htasks hsending hwriting hcaller hne hevents nofun horder hstep
  | ack =>
    cases hstep
    refine ⟨.task .pop ?_ hsending hwriting hcaller hfits horder, ?_, ?_, ?_⟩
    · show c.tasks.set 0 .pop = [.pop]
      rw [htasks]
      rfl
    · show 0 ≤ c.acks + 1
      have hnonneg := h.nonneg
      omega
    · show c.caller.Holds (c.acks + 1)
      exact h.holds.mono (by omega)
    · show c.returned + (c.acks + 1) + ((c.tasks.set 0 .pop).count .ack : ℕ) = c.completed
      rw [htasks]
      simp only [List.count_singleton, List.set_cons_zero] at hkept ⊢
      simp at hkept ⊢
      omega
  | pop =>
    simp only [Connection.taskStep] at hstep
    split at hstep
    · cases hstep
    · rename_i v queue hqueue
      cases hstep
      refine ⟨.task .again ?_ hsending hwriting hcaller rfl ?_, h.nonneg, h.holds, ?_⟩
      · show c.tasks.set 0 .again = [.again]
        rw [htasks]
        rfl
      · show c.written = c.handed ++ queue ++ c.exposed_write_queue
        rw [horder]
        show c.handed ++ c.write_queue.tail ++ _ = _
        rw [hqueue, List.tail_cons]
      · show c.returned + c.acks + ((c.tasks.set 0 .again).count .ack : ℕ) = c.completed
        rw [htasks]
        exact hkept
  | again =>
    cases hstep
    by_cases hevents : c.write_queue_has_events = true
    · rw [if_pos hevents]
      exact h.goOn .next htasks hsending hwriting hcaller ⟨ne_nil_of_events hfits hevents, hevents⟩
        horder nofun nofun
    · rw [if_neg hevents]
      have hevents := Bool.eq_false_iff.mpr hevents
      exact h.goOn .start htasks hsending hwriting hcaller ⟨eq_nil_of_events hfits hevents, hevents⟩
        horder nofun nofun

theorem Inv.complete (h : Inv c) {v : V} (hv : c.sending[k]? = some v) :
    Inv { c with
      sending := c.sending.eraseIdx k, tasks := c.tasks ++ [.ack], completed := c.completed + 1 } := by
  have hkept := h.kept
  cases h.token with
  | nobody _ sending => rw [sending] at hv; cases hv
  | caller _ sending => rw [sending] at hv; cases hv
  | task _ _ sending => rw [sending] at hv; cases hv
  | socket w tasks sending writing caller queue events order =>
    obtain rfl : k = 0 := by
      rw [sending] at hv
      cases k with
      | zero => rfl
      | succ k => cases hv
    refine ⟨.task .ack ?_ ?_ writing caller ⟨queue, events⟩ order, h.nonneg, h.holds, ?_⟩
    · show c.tasks ++ [.ack] = [.ack]
      rw [tasks]
      rfl
    · show c.sending.eraseIdx 0 = []
      rw [sending]
      rfl
    · show c.returned + c.acks + ((c.tasks ++ [Task.ack]).count .ack : ℕ) = c.completed + 1
      rw [tasks] at hkept ⊢
      simp at hkept ⊢
      omega

theorem Inv.step (h : Inv c) {a : Act V} (hstep : c.step a = some c') : Inv c' := by
  cases a with
  | write v | flush =>
    simp only [Connection.step] at hstep
    split at hstep
    · rename_i hcaller
      cases hstep
      exact ⟨h.token.move c.acks c.returned (by rw [hcaller]; rfl) rfl, h.nonneg, trivial, h.kept⟩
    · cases hstep
  | caller => exact h.callerStep hstep
  | task k =>
    obtain ⟨t, ht, hstep⟩ := Option.bind_eq_some_iff.mp hstep
    exact h.taskStep ht hstep
  | complete k =>
    obtain ⟨v, hv, rfl⟩ := Option.map_eq_some_iff.mp hstep
    exact h.complete hv

/-! ## Wake-ups -/

/-- `write` does not read `_writing` while a task is about to reset it. -/
def harmless (c : Connection V) : Act V → Bool
  | .caller => !(c.caller.isTest && c.tasks.any (Task.leaves c.write_queue_has_events))
  | _ => true

/-- What is pushed is seen by a task, or the caller will post one. -/
def Awake (c : Connection V) : Prop :=
  c.exposed_write_queue ≠ [] → c.caller.waking = true ∨
    c.writing = true ∧ c.tasks.any (Task.leaves c.write_queue_has_events) = false

theorem awake_new : Awake (new : Connection V) := fun h => absurd rfl h

/-- The caller goes on without having pushed anything. -/
theorem Awake.move (h : Awake c) (hnot : c.caller.waking = false) (hc' : c'.exposed_write_queue =
    c.exposed_write_queue) (hwriting : c.writing = true → c'.writing = true)
    (htasks : c.tasks.any (Task.leaves c.write_queue_has_events) = false →
      c'.tasks.any (Task.leaves c'.write_queue_has_events) = false) : Awake c' := by
  intro hne
  rw [hc'] at hne
  rcases h hne with hwaking | ⟨htrue, hnone⟩
  · rw [hnot] at hwaking
    cases hwaking
  · exact .inr ⟨hwriting htrue, htasks hnone⟩

theorem any_leaves_append {tasks : List Task}
    (h : tasks.any (Task.leaves events) = false) (ht : t.leaves events = false) :
    (tasks ++ [t]).any (Task.leaves events) = false := by
  rw [List.any_append, h, List.any_cons, ht]
  rfl

theorem Awake.callerStep (h : Awake c) (hinv : Inv c) (hharmless : c.harmless .caller = true)
    (hstep : c.callerStep = some c') : Awake c' := by
  unfold Connection.callerStep at hstep
  have hmove := @Awake.move V c c' h
  cases hcaller : c.caller with rw [hcaller] at hstep hmove
  | idle => cases hstep
  | push v =>
    cases hstep
    exact fun _ => .inl rfl
  | test =>
    cases hstep
    by_cases hwriting : c.writing = true
    · rw [if_pos hwriting]
      refine fun _ => .inr ⟨hwriting, ?_⟩
      unfold harmless at hharmless
      rw [hcaller] at hharmless
      simpa [Caller.isTest] using hharmless
    · rw [if_neg hwriting]
      exact fun _ => .inl rfl
  | set =>
    cases hstep
    exact fun _ => .inl rfl
  | post =>
    cases hstep
    refine fun _ => .inr ?_
    cases hinv.token with
    | nobody _ _ _ caller => rw [hcaller] at caller; cases caller
    | caller tasks _ writing =>
      refine ⟨writing, ?_⟩
      show (c.tasks ++ [Task.start]).any _ = false
      rw [tasks]
      rfl
    | task _ _ _ _ caller => rw [hcaller] at caller; cases caller
    | socket _ _ _ _ caller => rw [hcaller] at caller; cases caller
  | flushTest retval =>
    cases hstep
    exact hmove rfl rfl id id
  | flushEvents retval =>
    cases hstep
    by_cases hevents : c.write_queue_has_events = true
    · rw [if_pos hevents] at hmove ⊢
      exact hmove rfl rfl id id
    · rw [if_neg hevents] at hmove ⊢
      exact hmove rfl rfl id id
  | flushWriting retval =>
    cases hstep
    by_cases hwriting : c.writing = true
    · rw [if_pos hwriting] at hmove ⊢
      exact hmove rfl rfl id id
    · rw [if_neg hwriting] at hmove ⊢
      exact hmove rfl rfl id id
  | flushSet retval =>
    cases hstep
    exact hmove rfl rfl (fun _ => rfl) id
  | flushPost retval =>
    cases hstep
    exact hmove rfl rfl id fun hnone => any_leaves_append hnone rfl
  | _ =>
    cases hstep
    exact hmove rfl rfl id id

theorem Awake.taskStep (h : Awake c) (hinv : Inv c) (ht : c.tasks[k]? = some t)
    (hstep : c.taskStep k t = some c') : Awake c' := by
  obtain ⟨rfl, htasks, hsending, hwriting, hcaller, hfits, horder⟩ := hinv.token.of_task ht
  have hset : ∀ t' : Task, c.tasks.set 0 t' = [t'] := fun t' => by rw [htasks]; rfl
  have hany : c.tasks.any (Task.leaves c.write_queue_has_events) =
      t.leaves c.write_queue_has_events := by
    rw [htasks, List.any_cons, List.any_nil, Bool.or_false]
  -- a task that does not leave keeps the token
  have hstays : ∀ t' : Task, t'.leaves c.write_queue_has_events = false →
      Awake { c with tasks := c.tasks.set 0 t' } := by
    refine fun t' ht' _ => .inr ⟨hwriting, ?_⟩
    show (c.tasks.set 0 t').any _ = false
    rw [hset, List.any_cons, List.any_nil, Bool.or_false]
    exact ht'
  have hasync : c.asyncWrite 0 = some c' → Awake c' := by
    intro hstep _
    unfold asyncWrite at hstep
    split at hstep
    · cases hstep
    · cases hstep
      refine .inr ⟨hwriting, ?_⟩
      show (c.tasks.eraseIdx 0).any _ = false
      rw [htasks]
      rfl
  cases t with
  | start =>
    cases hstep
    refine hstays _ ?_
    rw [if_neg (by rw [hfits.2]; exact Bool.false_ne_true)]
    rfl
  | swap =>
    cases hstep
    exact fun hne => absurd hfits.1 hne
  | test =>
    cases hstep
    by_cases hevents : c.write_queue_has_events = true
    · rw [if_pos hevents]
      exact hstays .send rfl
    · intro hne
      rcases h hne with hwaking | ⟨-, hnone⟩
      · exact .inl hwaking
      · rw [hany, Bool.eq_false_iff.mpr hevents] at hnone
        cases hnone
  | reset =>
    cases hstep
    intro hne
    rcases h hne with hwaking | ⟨-, hnone⟩
    · exact .inl hwaking
    · rw [hany] at hnone
      cases hnone
  | send => exact hasync hstep
  | ack =>
    cases hstep
    exact hstays .pop rfl
  | pop =>
    simp only [Connection.taskStep] at hstep
    split at hstep
    · cases hstep
    · cases hstep
      refine fun _ => .inr ⟨hwriting, ?_⟩
      show (c.tasks.set 0 .again).any _ = false
      rw [hset]
      rfl
  | again =>
    cases hstep
    refine hstays _ ?_
    split <;> rfl
  | next => exact hasync hstep

theorem Awake.step (h : Awake c) (hinv : Inv c) {a : Act V} (hharmless : c.harmless a = true)
    (hstep : c.step a = some c') : Awake c' := by
  cases a with
  | write v | flush =>
    simp only [Connection.step] at hstep
    split at hstep
    · rename_i hcaller
      cases hstep
      exact h.move (by rw [hcaller]; rfl) rfl id id
    · cases hstep
  | caller => exact h.callerStep hinv hharmless hstep
  | task k =>
    obtain ⟨t, ht, hstep⟩ := Option.bind_eq_some_iff.mp hstep
    exact h.taskStep hinv ht hstep
  | complete k =>
    obtain ⟨v, -, rfl⟩ := Option.map_eq_some_iff.mp hstep
    intro hne
    rcases h hne with hwaking | ⟨htrue, hnone⟩
    · exact .inl hwaking
    · exact .inr ⟨htrue, any_leaves_append hnone rfl⟩

/-! ## Every run -/

/-- A run whose steps are all harmless. -/
def HarmlessRun : List (Act V) → Connection V → Prop
  | [], _ => True
  | a :: acts, c => c.harmless a = true ∧ ∀ c' ∈ c.step a, HarmlessRun acts c'

instance decidableHarmlessRun : (acts : List (Act V)) → DecidablePred (HarmlessRun acts)
  | [], _ => isTrue trivial
  | _ :: acts, _ =>
    have := decidableHarmlessRun acts
    inferInstanceAs (Decidable (_ ∧ _))

/-- Order and acknowledgements, whatever the steps. -/
theorem Inv.run (acts : List (Act V)) (h : Inv c) (hrun : c.run acts = some c') : Inv c' := by
  induction acts generalizing c with
  | nil =>
    cases hrun
    exact h
  | cons a acts ih =>
    obtain ⟨c₁, hstep, hrun⟩ := Option.bind_eq_some_iff.mp hrun
    exact ih (h.step hstep) hrun

theorem Awake.run (acts : List (Act V)) (h : Awake c) (hinv : Inv c)
    (hharmless : HarmlessRun acts c) (hrun : c.run acts = some c') : Awake c' := by
  induction acts generalizing c with
  | nil =>
    cases hrun
    exact h
  | cons a acts ih =>
    obtain ⟨c₁, hstep, hrun⟩ := Option.bind_eq_some_iff.mp hrun
    exact ih (h.step hinv hharmless.1 hstep) (hinv.step hstep) (hharmless.2 c₁ hstep) hrun

theorem Inv.sound (h : Inv c) (hawake : Awake c) : Sound c where
  order := by
    cases h.token with
    | nobody _ _ _ _ _ _ order => exact ⟨_, order.symm⟩
    | caller _ _ _ _ _ _ order => exact ⟨_, order.symm⟩
    | task _ _ _ _ _ _ order => exact ⟨_, (List.append_assoc ..).symm.trans order.symm⟩
    | socket _ _ _ _ _ _ _ order => exact ⟨_, (List.append_assoc ..).symm.trans order.symm⟩
  front t ht hcalls := by
    obtain ⟨k, hk⟩ := List.getElem?_of_mem ht
    obtain ⟨-, -, -, -, -, hfits, -⟩ := h.token.of_task hk
    rcases hcalls with rfl | rfl | rfl <;> exact hfits.1
  single := by
    cases h.token with
    | nobody _ sending => rw [sending]; exact Nat.zero_le 1
    | caller _ sending => rw [sending]; exact Nat.zero_le 1
    | task _ _ sending => rw [sending]; exact Nat.zero_le 1
    | socket _ _ sending => rw [sending]; exact Nat.le_refl 1
  acks := by
    have hkept := h.kept
    have hnonneg := h.nonneg
    omega
  kept := h.kept
  awake hidle htasks hsending := by
    have hempty : c.exposed_write_queue = [] := by
      by_contra hne
      rcases hawake hne with hwaking | ⟨hwriting, -⟩
      · rw [hidle] at hwaking
        cases hwaking
      · cases h.token with
        | nobody _ _ writing => rw [hwriting] at writing; cases writing
        | caller _ _ _ caller => rw [hidle] at caller; cases caller
        | task _ tasks => rw [htasks] at tasks; cases tasks
        | socket _ _ sending => rw [hsending] at sending; cases sending
    cases h.token with
    | nobody _ _ _ _ _ _ order => rw [order, hempty, List.append_nil]
    | caller _ _ _ _ _ _ order => rw [order, hempty, List.append_nil]
    | task _ tasks => rw [htasks] at tasks; cases tasks
    | socket _ _ sending => rw [hsending] at sending; cases sending

/-- The output is sound where `write` never reads `_writing` between the last swap of a task and
its reset. -/
theorem run_sound (acts : List (Act V)) (hharmless : HarmlessRun acts new)
    (hrun : new.run acts = some c) : Sound c :=
  (inv_new.run acts hrun).sound (awake_new.run acts inv_new hharmless hrun)

/-- A vector is written and sent, up to the last swap of the task. -/
def sendOne : List (Act ℕ) :=
  [.write 1, .caller, .caller, .caller, .caller, .caller, .caller, .task 0, .task 0, .task 0,
    .task 0, .complete 0, .task 0, .task 0, .task 0, .task 0, .task 0]

/-- The second `write` comes after the task is done, and starts another. -/
theorem run_sound_second : ∃ c, new.run (sendOne ++ [.task 0, .task 0, .write 2] ++
      List.replicate 6 .caller ++ List.replicate 4 (.task 0)) = some c ∧
    c.handed = [1, 2] ∧ Sound c :=
  ⟨_, rfl, rfl, run_sound (sendOne ++ [.task 0, .task 0, .write 2] ++ List.replicate 6 .caller ++
    List.replicate 4 (.task 0)) (by decide) rfl⟩

/-- The second `write` comes between the last swap and the reset: nobody sends its vector. -/
theorem not_sound : ¬ ∀ (acts : List (Act ℕ)) (c : Connection ℕ), new.run acts = some c → Sound c := by
  intro h
  have hsound := h (sendOne ++ [.write 2] ++ List.replicate 4 .caller ++ [.task 0, .task 0]) _ rfl
  exact absurd (hsound.awake rfl rfl rfl) (by decide)

end Connection

end CentreonBroker.Tcp
