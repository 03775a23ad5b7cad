import CentreonBroker.Notification.Steps
import CentreonBroker.Lib.Runs

/-!
# The life of a notification

A node that is not OK has one chain of attempts for each of its rules: the processing that starts
it, or the attempt that is pending. A node that is OK has none, and only such a node has recovery
notifications pending.

This is so as long as a node goes from OK to a problem and back, and its state changes only while
the scheduler has no action of it in hands. A change from one problem to another is taken for a
recovery; and what the scheduler has in hands is not removed when the state changes, so that it is
processed, and goes on, in a state that it was not scheduled for.
-/

namespace CentreonBroker.Notification

namespace Engine

variable {o : Objects} {w w' : Engine}

/-! ## The law -/

/-- What holds between two steps, whatever the steps are. -/
structure Sane (w : Engine) : Prop where
  indexed : w.queue.Indexed
  about : ∀ a ∈ w.tasks, a.About .notificationAttempt ∨ a.About .notificationUp
  known : ∀ a ∈ w.tasks, (w.hardState a.id).isSome

/-- A node and a rule have one chain of attempts at most. A node that is OK has no attempts, only
one that is OK has recovery notifications, and no other was sent. -/
structure Law (w : Engine) : Prop where
  single : ∀ id rule, w.tasks.countP (fun a => a.OfChain id rule) ≤ 1
  attempts : ∀ a ∈ w.tasks, a.About .notificationAttempt → w.hardState a.id ≠ some ok
  recoveries : ∀ a ∈ w.tasks, a.About .notificationUp → w.hardState a.id = some ok
  sent : ∀ s ∈ w.sent, s.1.act = .notificationUp → s.2 = ok

theorem Sane.start (nodes : NodeId → Option Node) : Sane (start nodes) where
  indexed := .empty
  about := List.forall_mem_nil _
  known := List.forall_mem_nil _

theorem Law.start (nodes : NodeId → Option Node) : Law (start nodes) where
  single _ _ := Nat.zero_le _
  attempts := List.forall_mem_nil _
  recoveries := List.forall_mem_nil _
  sent := List.forall_mem_nil _

theorem Sane.same (h : Sane w) (hsame : Same w w') (hq : w'.queue.Indexed) : Sane w' where
  indexed := hq
  about a ha := h.about a (hsame.tasks.mem_iff.mp ha)
  known a ha := by
    rw [hsame.hardState]
    exact h.known a (hsame.tasks.mem_iff.mp ha)

theorem Law.same (h : Law w) (hsame : Same w w') : Law w' where
  single id rule := by
    rw [hsame.tasks.countP_eq]
    exact h.single id rule
  attempts a ha := by
    rw [hsame.hardState]
    exact h.attempts a (hsame.tasks.mem_iff.mp ha)
  recoveries a ha := by
    rw [hsame.hardState]
    exact h.recoveries a (hsame.tasks.mem_iff.mp ha)
  sent := by
    rw [hsame.sent]
    exact h.sent

variable {a : Action} {e : StatusEvent} {s : ℤ}

/-- What is pending after a change: the new action, and old ones. -/
theorem Changed.mem (h : Changed e s w w')
    (ha : a ∈ w'.tasks) :
    a = changed e.nodeId s ∨ a ∈ w.tasks ∧ (a.id ≠ e.nodeId ∨ ∃ b ∈ w.inHand, b.id = a.id) := by
  rcases List.mem_cons.mp (h.tasks.mem_iff.mp ha) with hnew | hold
  · exact .inl hnew
  · right
    obtain ⟨b, hb, rfl⟩ := List.mem_map.mp hold
    rcases List.mem_append.mp hb with hqueue | hhand
    · obtain ⟨hmem, hid⟩ := List.mem_filter.mp hqueue
      exact ⟨List.mem_map_of_mem (List.mem_append_left _ hmem), .inl (of_decide_eq_true hid)⟩
    · exact ⟨List.mem_map_of_mem (List.mem_append_right _ hhand), .inr ⟨b, hhand, rfl⟩⟩

theorem about_changed {id : NodeId} :
    ((changed id s).About .notificationAttempt ↔ s = ok) ∧
      ((changed id s).About .notificationUp ↔ s ≠ ok) := by
  unfold changed
  by_cases hs : s = ok
  · simp [Action.About, hs]
  · simp [Action.About, hs]

variable {r : Reading}

/-- What an action spawned, or an action that was pending already. -/
theorem Processed.mem {b : Action} (h : Processed o r a w w') (hb : b ∈ w'.tasks) :
    a.untimed ∈ w.tasks ∧
      (b ∈ w.tasks ∨
        b ∈ ((a.processAction o w.nodes r).spawned.map Prod.snd).map Action.untimed) := by
  obtain ⟨others, hbefore, hafter⟩ := h.tasks
  refine ⟨hbefore.mem_iff.mpr List.mem_cons_self, ?_⟩
  rcases List.mem_append.mp (hafter.mem_iff.mp hb) with hnew | hold
  · exact .inr hnew
  · exact .inl (hbefore.mem_iff.mpr (List.mem_cons_of_mem _ hold))

/-- What an action spawned is about its node, and leads to the same notifications. -/
theorem Processed.old {b : Action} (h : Processed o r a w w') (hb : b ∈ w'.tasks)
    {t : ActionType} (ht : t = .notificationAttempt ∨ t = .notificationUp) (habout : b.About t) :
    ∃ c ∈ w.tasks, c.id = b.id ∧ c.About t := by
  obtain ⟨ha, hold | hnew⟩ := h.mem hb
  · exact ⟨b, hold, rfl, habout⟩
  · obtain ⟨b', hb', rfl⟩ := List.mem_map.mp hnew
    obtain ⟨hid, hiff⟩ := Action.about_spawned ht hb'
    exact ⟨a.untimed, ha, hid.symm, hiff.mp habout⟩

theorem Sane.step (h : Sane w) (o : Objects) (op : EngineOp) : Sane (w.step o op) := by
  obtain ⟨hindexed, ⟨hsame, -⟩ | ⟨e, now, s, -, hs, hne, hchanged⟩ | ⟨r, a, -, -, -, hprocessed⟩⟩ :=
    step_cases o h.indexed op
  · exact h.same hsame hindexed
  · refine ⟨hindexed, ?_, ?_⟩
    · intro b hb
      rcases hchanged.mem hb with rfl | ⟨hold, -⟩
      · by_cases hok : s = ok
        · exact .inl (about_changed.1.mpr hok)
        · exact .inr (about_changed.2.mpr hok)
      · exact h.about b hold
    · intro b hb
      rw [hchanged.hardState]
      by_cases hid : b.id = e.nodeId
      · rw [hid, Function.update_self]
        rfl
      · rw [Function.update_of_ne hid]
        rcases hchanged.mem hb with rfl | ⟨hold, -⟩
        · exact absurd rfl hid
        · exact h.known b hold
  · refine ⟨hindexed, ?_, ?_⟩
    · intro b hb
      obtain ⟨ha, hold | hnew⟩ := hprocessed.mem hb
      · exact h.about b hold
      · obtain ⟨b', hb', rfl⟩ := List.mem_map.mp hnew
        rcases h.about _ ha with hattempt | hup
        · exact .inl ((Action.about_spawned (.inl rfl) hb').2.mpr hattempt)
        · exact .inr ((Action.about_spawned (.inr rfl) hb').2.mpr hup)
    · intro b hb
      rw [hprocessed.hardState]
      obtain ⟨ha, hold | hnew⟩ := hprocessed.mem hb
      · exact h.known b hold
      · obtain ⟨b', hb', rfl⟩ := List.mem_map.mp hnew
        have hid : b'.untimed.id = a.untimed.id := (Action.about_spawned (.inl rfl) hb').1
        rw [hid]
        exact h.known _ ha

/-! ### A step that keeps the law -/

/-- A change in good order leaves nothing of the node that was pending before. -/
theorem Changed.mem_orderly (h : Changed e s w w')
    (hhand : ∀ a ∈ w.inHand, a.id ≠ e.nodeId) (ha : a ∈ w'.tasks) :
    a = changed e.nodeId s ∨ a ∈ w.tasks ∧ a.id ≠ e.nodeId := by
  rcases h.mem ha with hnew | ⟨hold, hid | ⟨b, hb, hid⟩⟩
  · exact .inl hnew
  · exact .inr ⟨hold, hid⟩
  · refine .inr ⟨hold, ?_⟩
    rw [← hid]
    exact hhand b hb

theorem Law.after_change (h : Law w) (hchanged : Changed e s w w')
    (hne : s ≠ e.lastHardState) (hok : s = ok ∨ e.lastHardState = ok)
    (hhand : ∀ a ∈ w.inHand, a.id ≠ e.nodeId) : Law w' where
  single id rule := by
    have hsublist : (((w.queue.pending.filter fun a => a.id ≠ e.nodeId) ++ w.inHand).map
        Action.untimed).Sublist w.tasks :=
      (List.filter_sublist.append_right w.inHand).map Action.untimed
    rw [hchanged.tasks.countP_eq, List.countP_cons]
    by_cases hid : id = e.nodeId
    · -- the new action is the only one of its node
      have hzero : (((w.queue.pending.filter fun a => a.id ≠ e.nodeId) ++ w.inHand).map
          Action.untimed).countP (fun a => a.OfChain id rule) = 0 := by
        rw [Action.countP_untimed]
        refine List.countP_eq_zero.mpr ?_
        intro a ha hchain
        have hnode : a.id = e.nodeId := (of_decide_eq_true hchain).1.trans hid
        rcases List.mem_append.mp ha with hqueue | hin
        · exact of_decide_eq_true (List.mem_filter.mp hqueue).2 hnode
        · exact hhand a hin hnode
      rw [hzero]
      split
      · exact le_refl 1
      · exact Nat.zero_le 1
    · have hnot : ¬ (changed e.nodeId s).OfChain id rule := fun hchain => hid hchain.1.symm
      rw [decide_eq_false hnot]
      exact hsublist.countP_le.trans (h.single id rule)
  attempts a ha habout := by
    rw [hchanged.hardState]
    rcases hchanged.mem_orderly hhand ha with rfl | ⟨hold, hid⟩
    · have hproblem : e.lastHardState ≠ ok := by
        rw [← about_changed.1.mp habout]
        exact hne.symm
      show Function.update w.hardState e.nodeId (some e.lastHardState) e.nodeId ≠ _
      rw [Function.update_self]
      exact fun heq => hproblem (Option.some.inj heq)
    · rw [Function.update_of_ne hid]
      exact h.attempts a hold habout
  recoveries a ha habout := by
    rw [hchanged.hardState]
    rcases hchanged.mem_orderly hhand ha with rfl | ⟨hold, hid⟩
    · have hrecovered := hok.resolve_left (about_changed.2.mp habout)
      show Function.update w.hardState e.nodeId (some e.lastHardState) e.nodeId = _
      rw [Function.update_self, hrecovered]
    · rw [Function.update_of_ne hid]
      exact h.recoveries a hold habout
  sent := by
    rw [hchanged.sent]
    exact h.sent

theorem Law.after_processing (h : Law w)
    (hprocessed : Processed o r a w w') (hrules : a.RulesOnce o) : Law w' where
  single id rule := by
    obtain ⟨others, hbefore, hafter⟩ := hprocessed.tasks
    have hone := h.single id rule
    have hspawned := @Action.countP_spawned_le o w.nodes r a hrules id rule
    have huntimed : decide (a.untimed.OfChain id rule) = decide (a.OfChain id rule) := rfl
    rw [hbefore.countP_eq, List.countP_cons, huntimed] at hone
    rw [hafter.countP_eq, List.countP_append, Action.countP_untimed]
    simp only [decide_eq_true_eq] at hone
    omega
  attempts b hb habout := by
    obtain ⟨c, hc, hid, hold⟩ := hprocessed.old hb (.inl rfl) habout
    rw [hprocessed.hardState, ← hid]
    exact h.attempts c hc hold
  recoveries b hb habout := by
    obtain ⟨c, hc, hid, hold⟩ := hprocessed.old hb (.inr rfl) habout
    rw [hprocessed.hardState, ← hid]
    exact h.recoveries c hc hold
  sent s hs hact := by
    rw [hprocessed.sent] at hs
    rcases List.mem_append.mp hs with hold | hnew
    · exact h.sent s hold hact
    · -- it was sent for the action, about the state that the node is in
      obtain ⟨others, hbefore, -⟩ := hprocessed.tasks
      rw [Option.mem_toList] at hnew
      obtain ⟨state, hsent, rfl⟩ := Option.map_eq_some_iff.mp hnew
      have hstate : w.hardState a.id = some state := Action.processAction_sent hsent
      have hok := h.recoveries a.untimed (hbefore.mem_iff.mpr List.mem_cons_self) (.inl hact)
      exact Option.some.inj (hstate.symm.trans hok)

/-! ### A step that breaks it -/

theorem orderly_of_changed (hs : Sane w) (h : Law w) (h' : Law w')
    (hchanged : Changed e s w w') (hstate : w.hardState e.nodeId = some s)
    (hne : s ≠ e.lastHardState) :
    (s = ok ∨ e.lastHardState = ok) ∧ ∀ a ∈ w.inHand, a.id ≠ e.nodeId := by
  have hstate' : w'.hardState e.nodeId = some e.lastHardState := by
    rw [hchanged.hardState, Function.update_self]
  have hok : s = ok ∨ e.lastHardState = ok := by
    by_cases hs : s = ok
    · exact .inl hs
    · right
      have hmem : changed e.nodeId s ∈ w'.tasks := hchanged.tasks.mem_iff.mpr List.mem_cons_self
      exact Option.some.inj (hstate'.symm.trans (h'.recoveries _ hmem (about_changed.2.mpr hs)))
  refine ⟨hok, ?_⟩
  intro a ha hid
  have hmem : a.untimed ∈ w.tasks := List.mem_map_of_mem (List.mem_append_right _ ha)
  have hmem' : a.untimed ∈ w'.tasks :=
    hchanged.tasks.mem_iff.mpr
      (List.mem_cons_of_mem _ (List.mem_map_of_mem (List.mem_append_right _ ha)))
  have hid : a.untimed.id = e.nodeId := hid
  rcases hs.about _ hmem with habout | habout
  · -- an attempt outlives the problem
    have hproblem := h.attempts _ hmem habout
    have hproblem' := h'.attempts _ hmem' habout
    rw [hid, hstate] at hproblem
    rw [hid, hstate'] at hproblem'
    rcases hok with rfl | heq
    · exact hproblem rfl
    · rw [heq] at hproblem'
      exact hproblem' rfl
  · -- a recovery notification outlives the recovery
    have hrecovered := h.recoveries _ hmem habout
    have hrecovered' := h'.recoveries _ hmem' habout
    rw [hid, hstate] at hrecovered
    rw [hid, hstate'] at hrecovered'
    exact hne ((Option.some.inj hrecovered).trans (Option.some.inj hrecovered').symm)

theorem rulesOnce_of_processed (h' : Law w')
    (hprocessed : Processed o r a w w') : a.RulesOnce o := by
  intro hact hforwarded hid
  obtain ⟨others, -, hafter⟩ := hprocessed.tasks
  refine List.nodup_iff_count_le_one.mpr ?_
  intro rule
  have hone := h'.single a.id rule
  have hspawned : (a.processAction o w.nodes r).spawned = a.spawnNotificationAttempts o r := by
    unfold Action.processAction
    rw [if_neg, if_pos hact]
    rintro (hunknown | hzero)
    · rw [hact] at hunknown
      cases hunknown
    · exact hid hzero
  rw [hafter.countP_eq, List.countP_append, Action.countP_untimed, hspawned,
    Action.countP_spawned_attempts, if_pos ⟨rfl, hforwarded⟩] at hone
  omega

/-- A step keeps the law exactly when it is in good order. -/
theorem law_step_iff (hs : Sane w) (h : Law w) (o : Objects) (op : EngineOp) :
    Law (w.step o op) ↔ Orderly o w op := by
  obtain ⟨-, ⟨hsame, horderly⟩ | ⟨e, now, s, rfl, hstate, hne, hchanged⟩ |
    ⟨r, a, rfl, hspawned, hhead, hprocessed⟩⟩ := step_cases o hs.indexed op
  · exact iff_of_true (h.same hsame) horderly
  · constructor
    · intro h' s' hs' _
      obtain rfl := Option.some.inj (hstate.symm.trans hs')
      exact orderly_of_changed hs h h' hchanged hstate hne
    · intro horderly
      obtain ⟨hok, hhand⟩ := horderly s hstate hne
      exact h.after_change hchanged hne hok hhand
  · constructor
    · intro h' _ b hb
      obtain rfl := Option.some.inj (hhead.symm.trans hb)
      exact rulesOnce_of_processed h' hprocessed
    · intro horderly
      exact h.after_processing hprocessed (horderly hspawned a hhead)

/-! ## The chains -/

/-- A chain of attempts of a node and a rule is pending. -/
def HasChain (id : NodeId) (rule : ℕ) (w : Engine) : Prop := ∃ a ∈ w.tasks, a.OfChain id rule

/-- With the step a node that was OK has a problem. -/
def Leaves (id : NodeId) (w : Engine) : EngineOp → Prop
  | .status e _ => e.nodeId = id ∧ w.hardState id = some ok ∧ e.lastHardState ≠ ok
  | .take _ | .process _ | .schedule => False

/-- With the step the node does not recover, and what is processed of the chain passes its
checks. -/
def Continues (o : Objects) (id : NodeId) (rule : ℕ) (w : Engine) : EngineOp → Prop
  | .status e _ => e.nodeId = id → e.lastHardState ≠ ok
  | .process _ => w.spawned = [] → ∀ a ∈ w.batch.head?, a.OfChain id rule →
      a.id ≠ ⟨0, 0⟩ ∧ (a.act = .notificationAttempt → (a.viable o w.nodes).isSome)
  | .take _ | .schedule => True

variable {id : NodeId} {rule : ℕ}

theorem hasChain_leaves (hs : Sane w) (o : Objects) {op : EngineOp} (h : Leaves id w op) :
    HasChain id rule (w.step o op) := by
  cases op with
  | status e now =>
    obtain ⟨rfl, hstate, hproblem⟩ := h
    obtain ⟨hchanged, -⟩ := changed_processStatusEvent hs.indexed now hstate hproblem.symm
    refine ⟨changed e.nodeId ok, hchanged.tasks.mem_iff.mpr List.mem_cons_self, rfl, .inr ?_⟩
    exact ⟨rfl, rfl⟩
  | take now => exact h.elim
  | process r => exact h.elim
  | schedule => exact h.elim

theorem hasChain_step (h : HasChain id rule w) (hs : Sane w) (hlaw : Law w)
    (hrule : rule ∈ (o.rulesByNode id).map NotificationRule.id) {op : EngineOp}
    (horderly : Orderly o w op) (hcontinues : Continues o id rule w op) :
    HasChain id rule (w.step o op) := by
  obtain ⟨a, ha, hchain⟩ := h
  obtain ⟨-, ⟨hsame, -⟩ | ⟨e, now, s, rfl, hstate, hne, hchanged⟩ |
    ⟨r, b, rfl, hspawned, hhead, hprocessed⟩⟩ := step_cases o hs.indexed op
  · exact ⟨a, hsame.tasks.mem_iff.mpr ha, hchain⟩
  · -- the state of another node changes: this one could only recover
    have hid : a.id ≠ e.nodeId := by
      intro heq
      have hproblem := hlaw.attempts a ha hchain.about
      rw [heq, hstate] at hproblem
      rcases (horderly s hstate hne).1 with rfl | hok
      · exact hproblem rfl
      · exact hcontinues (heq.symm.trans hchain.1) hok
    refine ⟨a, hchanged.tasks.mem_iff.mpr (List.mem_cons_of_mem _ ?_), hchain⟩
    obtain ⟨a', ha', rfl⟩ := List.mem_map.mp ha
    refine List.mem_map_of_mem ?_
    rcases List.mem_append.mp ha' with hqueue | hhand
    · exact List.mem_append_left _ (List.mem_filter.mpr ⟨hqueue, decide_eq_true hid⟩)
    · exact List.mem_append_right _ hhand
  · obtain ⟨others, hbefore, hafter⟩ := hprocessed.tasks
    rcases List.mem_cons.mp (hbefore.mem_iff.mp ha) with rfl | hold
    · -- the chain itself goes on
      have hchain : b.OfChain id rule := hchain
      obtain ⟨hid, hviable⟩ := hcontinues hspawned b hhead hchain
      obtain ⟨c, hc, hgoes⟩ := Action.chain_goes_on (r := r) hchain hid hviable hrule
      refine ⟨c.untimed, hafter.mem_iff.mpr (List.mem_append_left _ ?_), hgoes⟩
      exact List.mem_map_of_mem hc
    · exact ⟨a, hafter.mem_iff.mpr (List.mem_append_right _ hold), hchain⟩

/-! ## Runs -/

theorem hasChain_run {ops : List EngineOp} (h : HasChain id rule w) (hs : Sane w) (hlaw : Law w)
    (hrule : rule ∈ (o.rulesByNode id).map NotificationRule.id)
    (horderly : EachStep (step o) (Orderly o) w ops)
    (hcontinues : EachStep (step o) (Continues o id rule) w ops) :
    HasChain id rule (ops.foldl (step o) w) := by
  induction ops generalizing w with
  | nil => exact h
  | cons op ops ih =>
    have hnext := hasChain_step h hs hlaw hrule horderly.1 hcontinues.1
    exact ih hnext (hs.step o op) ((law_step_iff hs hlaw o op).mpr horderly.1) horderly.2
      hcontinues.2

/-- **The life cycle of the notifications**, in a run: the law holds throughout, and a node that
left OK keeps the chain of each of its rules until it recovers or a check fails. -/
structure LifeCycle (o : Objects) (w : Engine) (ops : List EngineOp) : Prop where
  law : Throughout (step o) Law w ops
  kept : ∀ pre op post id rule, pre ++ op :: post <+: ops → Leaves id (pre.foldl (step o) w) op →
    rule ∈ (o.rulesByNode id).map NotificationRule.id →
    EachStep (step o) (Continues o id rule) ((pre ++ [op]).foldl (step o) w) post →
    HasChain id rule ((pre ++ op :: post).foldl (step o) w)

theorem throughout_law_iff (hs : Sane w) (h : Law w) (o : Objects) (ops : List EngineOp) :
    Throughout (step o) Law w ops ↔ EachStep (step o) (Orderly o) w ops :=
  throughout_iff_eachStep_of_invariant (I := Sane) (P := Law) (C := Orderly o)
    (fun _ op hsane => hsane.step o op) (fun _ op hsane hlaw => law_step_iff hsane hlaw o op)
    hs h ops

theorem sane_run (hs : Sane w) (o : Objects) (ops : List EngineOp) :
    Sane (ops.foldl (step o) w) := by
  induction ops generalizing w with
  | nil => exact hs
  | cons op ops ih => exact ih (hs.step o op)

theorem law_run (hs : Sane w) (h : Law w) {ops : List EngineOp}
    (horderly : EachStep (step o) (Orderly o) w ops) : Law (ops.foldl (step o) w) :=
  ((throughout_law_iff hs h o ops).mpr horderly).last

/--
**The notifications have their life cycle in every interleaving** of the events and the steps of the
scheduler exactly when each step is in good order.
-/
theorem lifeCycle_iff (o : Objects) (nodes : NodeId → Option Node) (ops : List EngineOp) :
    LifeCycle o (start nodes) ops ↔ EachStep (step o) (Orderly o) (start nodes) ops := by
  have hsane := Sane.start nodes
  have hlaw := Law.start nodes
  constructor
  · intro h
    exact (throughout_law_iff hsane hlaw o ops).mp h.law
  · intro h
    refine ⟨(throughout_law_iff hsane hlaw o ops).mpr h, ?_⟩
    intro pre op post id rule hprefix hleaves hrule hcontinues
    obtain ⟨rest, rfl⟩ := hprefix
    have hrun := h.append.1
    rw [List.append_cons] at hrun ⊢
    rw [List.foldl_append]
    obtain ⟨hbefore, hpost⟩ := hrun.append
    have hchain : HasChain id rule ((pre ++ [op]).foldl (step o) (start nodes)) := by
      rw [List.foldl_append]
      exact hasChain_leaves (sane_run hsane o pre) o hleaves
    exact hasChain_run hchain (sane_run hsane o _) (law_run hsane hlaw hbefore) hrule hpost
      hcontinues

/-- A service goes from WARNING to CRITICAL, and a recovery notification is sent for it. -/
theorem not_lifeCycle : ¬ ∀ (o : Objects) (nodes : NodeId → Option Node) (ops : List EngineOp),
    LifeCycle o (start nodes) ops := by
  intro h
  have hlife := h
    { rules := [⟨1, 1, 0, 1, ⟨1, 2⟩⟩]
      methods := fun _ => some ⟨1, 60, ['o', 'w', 'c'], ['n', 'r'], 0, 0⟩
      timeperiods := fun _ => none
      contacts := fun _ => true
      commands := fun _ => true }
    (fun _ => some ⟨0, 0, []⟩)
    [.status ⟨1, 2, 1, 1⟩ 10, .take 11, .process ⟨fun _ => 11, false, false⟩, .schedule,
      .status ⟨1, 2, 2, 2⟩ 20, .take 21, .process ⟨fun _ => 21, false, false⟩, .schedule,
      .take 22, .process ⟨fun _ => 22, false, false⟩]
  have hsent := hlife.law.last.sent
  revert hsent
  decide +kernel

end Engine

end CentreonBroker.Notification
