import CentreonBroker.Notification.Scheduler

/-!
# What the steps of the notifications do

An action that is processed leads to actions about the same node and of the same types, and an
attempt goes on as one attempt. A step changes nothing of what is pending, or it is a change of the
state of a node, or it processes an action.
-/

namespace CentreonBroker.Notification

namespace Action

/-- The action leads to notifications of a type, now or once it has been spawned. -/
def About (t : ActionType) (a : Action) : Prop :=
  a.act = t ∨ a.act = .notificationProcessing ∧ a.forwardedAction = t

/-- The action is in the chain of attempts of a node and a rule. -/
def OfChain (id : NodeId) (rule : ℕ) (a : Action) : Prop :=
  a.id = id ∧ (a.act = .notificationAttempt ∧ a.notificationRuleId = rule ∨
    a.act = .notificationProcessing ∧ a.forwardedAction = .notificationAttempt)

instance (t : ActionType) (a : Action) : Decidable (a.About t) :=
  inferInstanceAs (Decidable (_ ∨ _))

instance (id : NodeId) (rule : ℕ) (a : Action) : Decidable (a.OfChain id rule) :=
  inferInstanceAs (Decidable (_ ∧ _))

theorem OfChain.about {id : NodeId} {rule : ℕ} {a : Action} (h : a.OfChain id rule) :
    a.About .notificationAttempt := by
  rcases h.2 with hact | hact
  · exact .inl hact.1
  · exact .inr hact

/-! ## What an action spawns -/

variable {o : Objects} {nodes : NodeId → Option Node} {r : Reading} {a b : Action}

/-- An attempt that goes on is the same one, or the next. -/
structure Follows (a b : Action) : Prop where
  act : b.act = a.act
  forwardedAction : b.forwardedAction = a.forwardedAction
  id : b.id = a.id
  rule : b.notificationRuleId = a.notificationRuleId

theorem Follows.about_iff (h : Follows a b) (t : ActionType) : b.About t ↔ a.About t := by
  rw [About, About, h.act, h.forwardedAction]

theorem Follows.ofChain_iff (h : Follows a b) (id : NodeId) (rule : ℕ) :
    b.OfChain id rule ↔ a.OfChain id rule := by
  rw [OfChain, OfChain, h.act, h.forwardedAction, h.id, h.rule]

theorem viable_node {s : ℤ} {rule : NotificationRule} {method : NotificationMethod}
    (h : a.viable o nodes = some (s, rule, method)) : (nodes a.id).map Node.hardState = some s := by
  obtain ⟨n, hn, h⟩ := Option.bind_eq_some_iff.mp h
  obtain ⟨rule', -, h⟩ := Option.bind_eq_some_iff.mp h
  obtain ⟨method', -, h⟩ := Option.bind_eq_some_iff.mp h
  rw [hn]
  split_ifs at h
  cases h
  rfl

/-- An attempt goes on at most once, and what is sent is about the state of the node. -/
theorem processNotification_spec (o : Objects) (nodes : NodeId → Option Node) (r : Reading)
    (a : Action) :
    ((a.processNotification o nodes r).spawned = [] ∨
        ∃ time b, (a.processNotification o nodes r).spawned = [(time, b)] ∧ Follows a b) ∧
      (∀ s, (a.processNotification o nodes r).sent = some s →
        (nodes a.id).map Node.hardState = some s) ∧
      (a.act = .notificationAttempt → (a.viable o nodes).isSome →
        (a.processNotification o nodes r).spawned ≠ []) := by
  have hself : Follows a a := ⟨rfl, rfl, rfl, rfl⟩
  have hnext : Follows a a.next := ⟨rfl, rfl, rfl, rfl⟩
  unfold processNotification
  cases hviable : a.viable o nodes with
  | none => simp
  | some found =>
    obtain ⟨s, rule, method⟩ := found
    have hnode := viable_node hviable
    dsimp only
    cases (o.timeperiods rule.timeperiodId).filter fun tp =>
        !tp.isValid (r.clock a.notificationRuleId) with
    | some tp => exact ⟨.inr ⟨_, a, rfl, hself⟩, by simp, by simp⟩
    | none =>
      dsimp only
      refine ⟨?_, ?_, ?_⟩
      · split
        · exact .inr ⟨_, _, rfl, hnext⟩
        · exact .inl rfl
      · intro s' hs'
        split at hs'
        · rw [hnode, ← hs']
        · cases hs'
      · intro hact _
        rw [if_pos hact]
        exact List.cons_ne_nil _ _

/-- A notification that is sent is about the state that the node is in. -/
theorem processAction_sent {s : ℤ} (h : (a.processAction o nodes r).sent = some s) :
    (nodes a.id).map Node.hardState = some s := by
  unfold processAction at h
  split at h
  · cases h
  · split at h
    · cases h
    · exact (processNotification_spec o nodes r a).2.1 s h

/-- What an action spawns is about its node, and leads to the same notifications. -/
theorem about_spawned {t : ActionType} (ht : t = .notificationAttempt ∨ t = .notificationUp)
    (hb : b ∈ (a.processAction o nodes r).spawned.map Prod.snd) :
    b.id = a.id ∧ (b.About t ↔ a.About t) := by
  unfold processAction at hb
  split at hb
  · cases hb
  · split at hb
    · rename_i hact
      obtain ⟨⟨time, b'⟩, hb', rfl⟩ := List.mem_map.mp hb
      obtain ⟨rule, -, heq⟩ := List.mem_map.mp hb'
      obtain rfl := (Prod.ext_iff.mp heq).2
      refine ⟨rfl, ?_⟩
      unfold About
      rcases ht with rfl | rfl
      · simp [hact]
      · simp [hact]
    · rcases (processNotification_spec o nodes r a).1 with hnil | ⟨time, b', hone, hfollows⟩
      · rw [hnil] at hb
        cases hb
      · rw [hone] at hb
        obtain rfl := List.mem_singleton.mp hb
        exact ⟨hfollows.id, hfollows.about_iff t⟩

/-- The processing of a problem is processed where no rule of the node comes twice. -/
def RulesOnce (o : Objects) (a : Action) : Prop :=
  a.act = .notificationProcessing → a.forwardedAction = .notificationAttempt → a.id ≠ ⟨0, 0⟩ →
    ((o.rulesByNode a.id).map NotificationRule.id).Nodup

/-- An action that is not processed any further is in a chain as an attempt. -/
theorem ofChain_iff_of_unknown (h : b.forwardedAction = .unknown) (id : NodeId) (rule : ℕ) :
    b.OfChain id rule ↔
      (b.id = id ∧ b.act = .notificationAttempt) ∧ b.notificationRuleId = rule := by
  unfold OfChain
  simp [h, and_assoc]

theorem countP_spawned_attempts (o : Objects) (r : Reading) (a : Action) (id : NodeId) (rule : ℕ) :
    ((a.spawnNotificationAttempts o r).map Prod.snd).countP (fun b => b.OfChain id rule) =
      if a.id = id ∧ a.forwardedAction = .notificationAttempt then
        ((o.rulesByNode a.id).map NotificationRule.id).count rule
      else 0 := by
  unfold spawnNotificationAttempts
  rw [List.map_map, List.countP_map]
  split
  · rename_i h
    rw [List.count, List.countP_map]
    refine List.countP_congr ?_
    intro rule' _
    simp only [Function.comp_apply, decide_eq_true_eq, beq_iff_eq]
    exact (ofChain_iff_of_unknown rfl id rule).trans (and_iff_right h)
  · rename_i h
    refine List.countP_eq_zero.mpr ?_
    intro rule' _ hchain
    rw [Function.comp_apply, decide_eq_true_iff] at hchain
    exact h ((ofChain_iff_of_unknown rfl id rule).mp hchain).1

/-- The time of an action is no part of its chain. -/
theorem countP_untimed (l : List Action) (id : NodeId) (rule : ℕ) :
    (l.map untimed).countP (fun b => b.OfChain id rule) = l.countP fun b => b.OfChain id rule := by
  rw [List.countP_map]
  rfl

/-- A chain that goes on is one chain. -/
theorem countP_spawned_le (h : a.RulesOnce o) (id : NodeId) (rule : ℕ) :
    ((a.processAction o nodes r).spawned.map Prod.snd).countP (fun b => b.OfChain id rule) ≤
      if a.OfChain id rule then 1 else 0 := by
  unfold processAction
  split
  · exact Nat.zero_le _
  · rename_i hguard
    split
    · rename_i hact
      dsimp only
      rw [countP_spawned_attempts]
      split
      · rename_i hchain
        rw [if_pos ⟨hchain.1, .inr ⟨hact, hchain.2⟩⟩]
        have hid : a.id ≠ ⟨0, 0⟩ := fun hid => hguard (.inr hid)
        exact List.nodup_iff_count_le_one.mp (h hact hchain.2 hid) rule
      · exact Nat.zero_le _
    · rcases (processNotification_spec o nodes r a).1 with hnil | ⟨time, b, hone, hfollows⟩
      · rw [hnil]
        exact Nat.zero_le _
      · rw [hone, List.map_singleton, List.countP_singleton]
        simp only [decide_eq_true_eq, hfollows.ofChain_iff]
        exact le_refl _

/-- A chain goes on where its checks succeed. -/
theorem chain_goes_on {id : NodeId} {rule : ℕ} (h : a.OfChain id rule) (hid : a.id ≠ ⟨0, 0⟩)
    (hviable : a.act = .notificationAttempt → (a.viable o nodes).isSome)
    (hrule : rule ∈ (o.rulesByNode id).map NotificationRule.id) :
    ∃ b ∈ (a.processAction o nodes r).spawned.map Prod.snd, b.OfChain id rule := by
  unfold processAction
  rcases h.2 with ⟨hact, -⟩ | ⟨hact, hforwarded⟩
  · rw [if_neg (by simp [hact, hid]), if_neg (by simp [hact])]
    obtain ⟨hspawned, -, hne⟩ := processNotification_spec o nodes r a
    rcases hspawned with hnil | ⟨time, b, hone, hfollows⟩
    · exact absurd hnil (hne hact (hviable hact))
    · rw [hone]
      exact ⟨b, List.mem_cons_self, (hfollows.ofChain_iff id rule).mpr h⟩
  · rw [if_neg (by simp [hact, hid]), if_pos hact]
    obtain ⟨rule', hmem, rfl⟩ := List.mem_map.mp hrule
    rw [← h.1] at hmem
    refine ⟨_, List.mem_map_of_mem (List.mem_map_of_mem hmem), ?_⟩
    exact (ofChain_iff_of_unknown rfl id rule'.id).mpr ⟨⟨h.1, hforwarded⟩, rfl⟩

end Action

namespace Engine

variable {o : Objects} {w w' : Engine}

/-! ## What the steps do -/

/-- What is pending, and what the nodes are in, has not changed. -/
structure Same (w w' : Engine) : Prop where
  tasks : w'.tasks.Perm w.tasks
  hardState : w'.hardState = w.hardState
  sent : w'.sent = w.sent

theorem Same.refl (w : Engine) : Same w w := ⟨.refl _, rfl, rfl⟩

theorem same_takeBatch (hq : w.queue.Indexed) (hbatch : w.batch = []) (hspawned : w.spawned = [])
    (now : ℤ) : Same w (w.takeBatch now) ∧ (w.takeBatch now).queue.Indexed := by
  obtain ⟨queue, localQueue, hmove, hindexed, hperm⟩ := RunQueue.moveToQueue_spec hq now
  unfold takeBatch
  rw [hmove]
  refine ⟨⟨?_, rfl, rfl⟩, hindexed⟩
  unfold tasks inHand
  dsimp only
  rw [hbatch, hspawned, List.map_nil, List.append_nil, List.append_nil, List.append_nil]
  exact hperm.map _

theorem same_scheduleOne (hq : w.queue.Indexed) :
    Same w w.scheduleOne ∧ w.scheduleOne.queue.Indexed := by
  unfold scheduleOne
  split
  · exact ⟨.refl w, hq⟩
  · rename_i time a spawned hspawned
    refine ⟨⟨?_, rfl, rfl⟩, hq.run time a⟩
    unfold tasks inHand
    dsimp only
    rw [hspawned, List.map_cons]
    -- the action is the same one but for its time
    have hrun := ((RunQueue.pending_run w.queue time a).append_right
      (w.batch ++ spawned.map Prod.snd)).map Action.untimed
    refine hrun.trans ?_
    have hmove : (a :: (w.queue.pending ++ (w.batch ++ spawned.map Prod.snd))).Perm
        (w.queue.pending ++ (w.batch ++ a :: spawned.map Prod.snd)) := by
      rw [← List.append_assoc, ← List.append_assoc]
      exact List.perm_middle.symm
    exact hmove.map Action.untimed

/-- An action was processed: it is replaced by what it spawns. -/
structure Processed (o : Objects) (r : Reading) (a : Action) (w w' : Engine) : Prop where
  hardState : w'.hardState = w.hardState
  sent : w'.sent = w.sent ++ ((a.processAction o w.nodes r).sent.map (Prod.mk a)).toList
  tasks : ∃ others, w.tasks.Perm (a.untimed :: others) ∧
    w'.tasks.Perm
      (((a.processAction o w.nodes r).spawned.map Prod.snd).map Action.untimed ++ others)

theorem processed_processOne {a : Action} {batch : List Action} (hbatch : w.batch = a :: batch)
    (hspawned : w.spawned = []) (r : Reading) :
    Processed o r a w (w.processOne o r) ∧ (w.processOne o r).queue = w.queue := by
  have hone : w.processOne o r = { w with
      batch := batch
      spawned := (a.processAction o w.nodes r).spawned
      sent := w.sent ++ ((a.processAction o w.nodes r).sent.map (Prod.mk a)).toList } := by
    unfold processOne
    rw [hbatch]
  rw [hone]
  refine ⟨⟨rfl, rfl, (w.queue.pending ++ batch).map Action.untimed, ?_, ?_⟩, rfl⟩
  · unfold tasks inHand
    rw [hbatch, hspawned, List.map_nil, List.append_nil, ← List.map_cons]
    exact List.perm_middle.map _
  · rw [← List.map_append]
    unfold tasks inHand
    dsimp only
    rw [← List.append_assoc]
    exact List.perm_append_comm.map _

theorem replaceActions_spec {q : RunQueue} (hq : q.Indexed) (time : ℤ) (a : Action) :
    (replaceActions time a q).Indexed ∧ (replaceActions time a q).pending.Perm
      ({ a with atTime := time } :: q.pending.filter fun b => b.id ≠ a.id) := by
  obtain ⟨hindexed, hperm⟩ := RunQueue.removeAll_spec hq (.refl (q.getActionsOfNode a.id))
  refine ⟨hindexed.run time a, ?_⟩
  exact (RunQueue.pending_run _ time a).trans (hperm.cons _)

/-- A status that changes nothing, or is of a node that is not known. -/
theorem same_processStatusEvent {e : StatusEvent} (now : ℤ)
    (h : ∀ s, w.hardState e.nodeId = some s → s = e.lastHardState) :
    Same w (w.processStatusEvent e now) ∧ (w.processStatusEvent e now).queue = w.queue := by
  unfold processStatusEvent
  cases hn : w.nodes e.nodeId with
  | none => exact ⟨.refl w, rfl⟩
  | some n =>
    have hsame : n.hardState = e.lastHardState := by
      refine h n.hardState ?_
      rw [hardState, hn]
      rfl
    dsimp only
    rw [if_neg (not_not_intro hsame)]
    refine ⟨⟨.refl _, ?_, rfl⟩, rfl⟩
    funext id
    unfold hardState
    dsimp only
    by_cases hid : id = e.nodeId
    · subst hid
      rw [Function.update_self, hn, Option.map_some, Option.map_some, hsame]
    · rw [Function.update_of_ne hid]

/-- A change of the hard state: the actions of the node that are in the queue are replaced. -/
structure Changed (e : StatusEvent) (s : ℤ) (w w' : Engine) : Prop where
  hardState : w'.hardState = Function.update w.hardState e.nodeId (some e.lastHardState)
  sent : w'.sent = w.sent
  tasks : w'.tasks.Perm (changed e.nodeId s ::
    ((w.queue.pending.filter fun a => a.id ≠ e.nodeId) ++ w.inHand).map Action.untimed)

theorem changed_processStatusEvent {e : StatusEvent} {s : ℤ} (hq : w.queue.Indexed) (now : ℤ)
    (hs : w.hardState e.nodeId = some s) (hne : s ≠ e.lastHardState) :
    Changed e s w (w.processStatusEvent e now) ∧ (w.processStatusEvent e now).queue.Indexed := by
  obtain ⟨n, hn, rfl⟩ := Option.map_eq_some_iff.mp hs
  obtain ⟨hindexed, hperm⟩ := replaceActions_spec hq (now + 1) (changed e.nodeId n.hardState)
  have hstep : w.processStatusEvent e now = { w with
      nodes := Function.update w.nodes e.nodeId
        (some { n with hardState := e.lastHardState, softState := e.currentState })
      queue := replaceActions (now + 1) (changed e.nodeId n.hardState) w.queue } := by
    unfold processStatusEvent
    rw [hn]
    exact if_pos hne
  rw [hstep]
  refine ⟨⟨?_, rfl, ?_⟩, hindexed⟩
  · funext id
    unfold hardState
    dsimp only
    by_cases hid : id = e.nodeId
    · subst hid
      rw [Function.update_self, Function.update_self]
      rfl
    · rw [Function.update_of_ne hid, Function.update_of_ne hid]
  · exact (hperm.append_right w.inHand).map Action.untimed

/-- What is asked of a step: a state changes from OK or to it, while no action of the node is in the
hands of the scheduler, and no rule of a node that has a problem comes twice. -/
def Orderly (o : Objects) (w : Engine) : EngineOp → Prop
  | .status e _ => ∀ s, w.hardState e.nodeId = some s → s ≠ e.lastHardState →
      (s = ok ∨ e.lastHardState = ok) ∧ ∀ a ∈ w.inHand, a.id ≠ e.nodeId
  | .process _ => w.spawned = [] → ∀ a ∈ w.batch.head?, a.RulesOnce o
  | .take _ | .schedule => True

/-- A step changes nothing of what is pending, or the state of a node, or it processes an action. -/
theorem step_cases (o : Objects) (hq : w.queue.Indexed) (op : EngineOp) :
    (w.step o op).queue.Indexed ∧
      ((Same w (w.step o op) ∧ Orderly o w op) ∨
        (∃ e now s, op = .status e now ∧ w.hardState e.nodeId = some s ∧ s ≠ e.lastHardState ∧
          Changed e s w (w.step o op)) ∨
        ∃ r a, op = .process r ∧ w.spawned = [] ∧ w.batch.head? = some a ∧
          Processed o r a w (w.step o op)) := by
  cases op with
  | status e now =>
    by_cases hchange : ∃ s, w.hardState e.nodeId = some s ∧ s ≠ e.lastHardState
    · obtain ⟨s, hs, hne⟩ := hchange
      obtain ⟨hchanged, hindexed⟩ := changed_processStatusEvent hq now hs hne
      exact ⟨hindexed, .inr (.inl ⟨e, now, s, rfl, hs, hne, hchanged⟩)⟩
    · have hsame : ∀ s, w.hardState e.nodeId = some s → s = e.lastHardState := by
        intro s hs
        by_contra hne
        exact hchange ⟨s, hs, hne⟩
      obtain ⟨hstep, hqueue⟩ := same_processStatusEvent now hsame
      refine ⟨?_, .inl ⟨hstep, fun s hs hne => absurd (hsame s hs) hne⟩⟩
      show (w.processStatusEvent e now).queue.Indexed
      rw [hqueue]
      exact hq
  | take now =>
    by_cases hidle : w.batch = [] ∧ w.spawned = []
    · have hstep : w.step o (.take now) = w.takeBatch now := if_pos hidle
      obtain ⟨hsame, hindexed⟩ := same_takeBatch hq hidle.1 hidle.2 now
      rw [hstep]
      exact ⟨hindexed, .inl ⟨hsame, trivial⟩⟩
    · have hstep : w.step o (.take now) = w := if_neg hidle
      rw [hstep]
      exact ⟨hq, .inl ⟨.refl w, trivial⟩⟩
  | process r =>
    by_cases hspawned : w.spawned = []
    · have hstep : w.step o (.process r) = w.processOne o r := if_pos hspawned
      rw [hstep]
      cases hbatch : w.batch with
      | nil =>
        have hnone : w.processOne o r = w := by
          unfold processOne
          rw [hbatch]
        rw [hnone]
        refine ⟨hq, .inl ⟨.refl w, ?_⟩⟩
        intro _ a ha
        rw [hbatch] at ha
        cases ha
      | cons a batch =>
        obtain ⟨hprocessed, hqueue⟩ := processed_processOne (o := o) hbatch hspawned r
        rw [hqueue]
        exact ⟨hq, .inr (.inr ⟨r, a, rfl, hspawned, rfl, hprocessed⟩)⟩
    · have hstep : w.step o (.process r) = w := if_neg hspawned
      rw [hstep]
      exact ⟨hq, .inl ⟨.refl w, fun hnil => absurd hnil hspawned⟩⟩
  | schedule =>
    obtain ⟨hsame, hindexed⟩ := same_scheduleOne hq
    exact ⟨hindexed, .inl ⟨hsame, trivial⟩⟩

end Engine

end CentreonBroker.Notification
