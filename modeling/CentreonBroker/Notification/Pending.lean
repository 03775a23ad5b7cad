import CentreonBroker.Notification.Consistency

/-!
# What is pending in a run queue

A queue that is never assigned holds more actions than those that are pending, as `remove` leaves
an action in the set. What is pending is what the indexes have, as often as they have it: they
are two views of one multiset of actions, which the operations change as one expects.
-/

namespace CentreonBroker.Notification

namespace RunQueue

/-- The actions that are to be run, in the order of their times. -/
def pending (q : RunQueue) : List Action := q.actionByTime.map fun e => e.2.target

/-- `get_actions_of_node`. -/
def getActionsOfNode (id : NodeId) (q : RunQueue) : List Pointer :=
  (q.actionByNode.filter fun e => e.1 = id).map fun e => e.2

/-- The loop of `remove_actions_of_node`, over pointers into the set. -/
def removeAll (l : List Pointer) (q : RunQueue) : RunQueue :=
  l.foldl (fun q p => (q.deref p).elim q q.remove) q

/-- The pointers of both indexes lead to the same actions, which are there. -/
structure Indexed (q : RunQueue) : Prop where
  alive : ∀ e ∈ q.actionByTime, e = (e.2.target.atTime, q.address e.2.target) ∧
    e.2.target ∈ q.actionSet
  byNode : q.actionByNode.Perm (q.actionByTime.map fun e => (e.2.target.id, e.2))

theorem Indexed.empty : Indexed {} where
  alive := List.forall_mem_nil _
  byNode := .nil

section

variable {q obj : RunQueue} {a : Action} {time : ℤ}

theorem Indexed.deref (h : q.Indexed) {e : ℤ × Pointer} (he : e ∈ q.actionByTime) :
    q.deref e.2 = some e.2.target := by
  obtain ⟨heq, hmem⟩ := h.alive e he
  have hage : e.2.age = q.age := by
    have htwo := congrArg (fun e => e.2.age) heq
    exact htwo
  exact if_pos ⟨hage, hmem⟩

/-! ## `run` -/

theorem run_eq (q : RunQueue) (time : ℤ) (a : Action) :
    (q.run time a).actionByTime =
        insertByTime (time, q.address { a with atTime := time }) q.actionByTime ∧
      (q.run time a).actionByNode =
        insertByNode (a.id, q.address { a with atTime := time }) q.actionByNode ∧
      (q.run time a).age = q.age ∧ { a with atTime := time } ∈ (q.run time a).actionSet ∧
      ∀ b ∈ q.actionSet, b ∈ (q.run time a).actionSet := by
  by_cases h : { a with atTime := time } ∈ q.actionSet
  · simp only [run, find_eq, if_pos h]
    exact ⟨trivial, trivial, trivial, h, fun b hb => hb⟩
  · simp only [run, find_eq, if_neg h]
    have hperm := List.perm_orderedInsert (fun a b : Action => a.lt b = true)
      { a with atTime := time } q.actionSet
    refine ⟨trivial, trivial, trivial, ?_, ?_⟩
    · exact hperm.mem_iff.mpr List.mem_cons_self
    · intro b hb
      exact hperm.mem_iff.mpr (List.mem_cons_of_mem _ hb)

/-- An action that runs at some time becomes pending with that time. -/
theorem pending_run (q : RunQueue) (time : ℤ) (a : Action) :
    (q.run time a).pending.Perm ({ a with atTime := time } :: q.pending) := by
  unfold pending
  rw [(run_eq q time a).1]
  exact (insertByTime_perm _ _).map _

theorem Indexed.run (h : q.Indexed) (time : ℤ) (a : Action) : (q.run time a).Indexed := by
  obtain ⟨htime, hnode, hage, hmem, hset⟩ := run_eq q time a
  have haddress : (q.run time a).address = q.address := by
    funext b
    exact congrArg (Pointer.mk · b) hage
  constructor
  · intro e he
    rw [htime] at he
    rw [haddress]
    rcases List.mem_cons.mp ((insertByTime_perm _ _).mem_iff.mp he) with rfl | hold
    · exact ⟨rfl, hmem⟩
    · obtain ⟨heq, hin⟩ := h.alive e hold
      exact ⟨heq, hset _ hin⟩
  · rw [htime, hnode]
    refine (insertByNode_perm _ _).trans (.trans ?_ ((insertByTime_perm _ _).map _).symm)
    exact h.byNode.cons _

/-! ## `remove` -/

theorem remove_eq (h : a ∈ q.actionSet) :
    (q.remove a).actionByTime = q.actionByTime.erase (a.atTime, q.address a) ∧
      (q.remove a).actionByNode = q.actionByNode.erase (a.id, q.address a) := by
  have htime : (fun e : ℤ × Pointer => decide (e.1 = a.atTime ∧ e.2 = q.address a)) =
      fun e => e == (a.atTime, q.address a) := by
    funext e
    rw [Bool.eq_iff_iff, decide_eq_true_iff, beq_iff_eq, Prod.ext_iff]
  have hnode : (fun e : NodeId × Pointer => decide (e.1 = a.id ∧ e.2 = q.address a)) =
      fun e => e == (a.id, q.address a) := by
    funext e
    rw [Bool.eq_iff_iff, decide_eq_true_iff, beq_iff_eq, Prod.ext_iff]
  have hremove : q.remove a = { q with
      actionByNode := q.actionByNode.eraseP fun e => e.1 = a.id ∧ e.2 = q.address a
      actionByTime := q.actionByTime.eraseP fun e => e.1 = a.atTime ∧ e.2 = q.address a } := by
    simp only [remove, find_eq, if_pos h]
  rw [hremove, List.erase_eq_eraseP', List.erase_eq_eraseP', ← htime, ← hnode]
  exact ⟨rfl, rfl⟩

/-- The entries of an action that is pending leave both indexes. -/
theorem Indexed.remove (h : q.Indexed) {e : ℤ × Pointer} (he : e ∈ q.actionByTime) :
    (q.remove e.2.target).Indexed ∧ q.actionByTime.Perm (e :: (q.remove e.2.target).actionByTime) ∧
      q.actionByNode.Perm ((e.2.target.id, e.2) :: (q.remove e.2.target).actionByNode) := by
  obtain ⟨heq, hmem⟩ := h.alive e he
  have hpointer : q.address e.2.target = e.2 := (congrArg Prod.snd heq).symm
  obtain ⟨htime, hnode⟩ := remove_eq hmem
  have hmemNode : (e.2.target.id, e.2) ∈ q.actionByNode :=
    h.byNode.mem_iff.mpr (List.mem_map_of_mem he)
  rw [← heq] at htime
  rw [hpointer] at hnode
  have hpermTime := List.perm_cons_erase he
  have hpermNode := List.perm_cons_erase hmemNode
  rw [← htime] at hpermTime
  rw [← hnode] at hpermNode
  refine ⟨⟨?_, ?_⟩, hpermTime, hpermNode⟩
  · intro f hf
    obtain ⟨hfeq, hfmem⟩ := h.alive f (hpermTime.mem_iff.mpr (List.mem_cons_of_mem _ hf))
    have hage : (q.remove e.2.target).address = q.address := by
      funext b
      exact congrArg (Pointer.mk · b) remove_age
    rw [hage, remove_actionSet]
    exact ⟨hfeq, hfmem⟩
  · refine List.Perm.cons_inv ((hpermNode.symm.trans h.byNode).trans ?_)
    exact hpermTime.map _

theorem Indexed.pending_remove (h : q.Indexed) {e : ℤ × Pointer} (he : e ∈ q.actionByTime) :
    q.pending.Perm (e.2.target :: (q.remove e.2.target).pending) :=
  (h.remove he).2.1.map _

/-! ## `remove_actions_of_node` -/

theorem removeAll_spec {id : NodeId} {l : List Pointer} (h : q.Indexed)
    (hl : (q.getActionsOfNode id).Perm l) :
    (q.removeAll l).Indexed ∧
      (q.removeAll l).pending.Perm (q.pending.filter fun a => a.id ≠ id) := by
  induction l generalizing q with
  | nil =>
    refine ⟨h, ?_⟩
    have hnone : ∀ a ∈ q.pending, a.id ≠ id := by
      intro a ha heq
      obtain ⟨e, he, rfl⟩ := List.mem_map.mp ha
      have hnode : (e.2.target.id, e.2) ∈ q.actionByNode :=
        h.byNode.mem_iff.mpr (List.mem_map_of_mem he)
      have hmem : e.2 ∈ q.getActionsOfNode id :=
        List.mem_map.mpr ⟨_, List.mem_filter.mpr ⟨hnode, decide_eq_true heq⟩, rfl⟩
      rw [hl.eq_nil] at hmem
      cases hmem
    have hall : (q.pending.filter fun a => a.id ≠ id) = q.pending :=
      List.filter_eq_self.mpr fun a ha => decide_eq_true (hnone a ha)
    rw [hall]
    exact .refl _
  | cons p l ih =>
    -- the pointer is one of the node, so it is in both indexes
    have hp : p ∈ q.getActionsOfNode id := hl.mem_iff.mpr List.mem_cons_self
    obtain ⟨f, hf, rfl⟩ := List.mem_map.mp hp
    obtain ⟨hf, hid⟩ := List.mem_filter.mp hf
    obtain ⟨e, he, hef⟩ := List.mem_map.mp (h.byNode.mem_iff.mp hf)
    obtain rfl := hef
    have hid : e.2.target.id = id := of_decide_eq_true hid
    obtain ⟨hindexed, -, hnode⟩ := h.remove he
    have hrest : ((q.remove e.2.target).getActionsOfNode id).Perm l := by
      have hfilter := (hnode.filter fun f => decide (f.1 = id)).map fun f => f.2
      simp only [List.filter_cons, hid, decide_true, if_true, List.map_cons] at hfilter
      exact List.Perm.cons_inv (hfilter.symm.trans hl)
    obtain ⟨hindexed', hpending⟩ := ih hindexed hrest
    have hstep : q.removeAll (e.2 :: l) = (q.remove e.2.target).removeAll l := by
      show ((q.deref e.2).elim q q.remove).removeAll l = _
      rw [h.deref he]
      rfl
    rw [hstep]
    refine ⟨hindexed', hpending.trans ?_⟩
    have hfilter := (h.pending_remove he).filter fun a => a.id ≠ id
    rw [List.filter_cons_of_neg (by simp [hid])] at hfilter
    exact hfilter.symm

/-! ## `move_to_queue` -/

/-- What is moved is pending in the other queue afterwards, and nothing else changes. -/
theorem moveLoop_spec {es : List (ℤ × Pointer)} (hq : q.Indexed) (hobj : obj.Indexed)
    (hes : q.actionByTime = es) :
    ∃ q' obj', moveLoop time es q obj = some (q', obj') ∧ q'.Indexed ∧ obj'.Indexed ∧
      (q'.pending ++ obj'.pending).Perm (q.pending ++ obj.pending) := by
  induction es generalizing q obj with
  | nil => exact ⟨q, obj, rfl, hq, hobj, .refl _⟩
  | cons e es ih =>
    rw [moveLoop]
    by_cases hdue : e.1 ≤ time
    · have he : e ∈ q.actionByTime := by
        rw [hes]
        exact List.mem_cons_self
      obtain ⟨hindexed, -, -⟩ := hq.remove he
      obtain ⟨heq, hmem⟩ := hq.alive e he
      -- the first entry of the pointer is the first entry of all
      have htail : (q.remove e.2.target).actionByTime = es := by
        rw [(remove_eq hmem).1, ← heq, hes, List.erase_cons_head]
      obtain ⟨q', obj', hloop, hq', hobj', hperm⟩ := ih hindexed (hobj.run e.1 e.2.target) htail
      rw [if_pos hdue, hq.deref he]
      refine ⟨q', obj', hloop, hq', hobj', hperm.trans ?_⟩
      have hsame : { e.2.target with atTime := e.1 } = e.2.target := by
        have htime := congrArg Prod.fst heq
        rw [htime]
      have hrun := pending_run obj e.1 e.2.target
      rw [hsame] at hrun
      refine (hrun.append_left _).trans (List.perm_middle.trans ?_)
      exact (hq.pending_remove he).symm.append_right _
    · rw [if_neg hdue]
      exact ⟨q, obj, rfl, hq, hobj, .refl _⟩

theorem moveToQueue_spec (hq : q.Indexed) (time : ℤ) :
    ∃ q' obj, q.moveToQueue {} time = some (q', obj) ∧ q'.Indexed ∧
      (q'.pending ++ obj.pending).Perm q.pending := by
  obtain ⟨q', obj, hmove, hq', -, hperm⟩ := @moveLoop_spec q {} time _ hq .empty rfl
  refine ⟨q', obj, hmove, hq', ?_⟩
  have hempty : q.pending ++ pending {} = q.pending := List.append_nil _
  rwa [hempty] at hperm

end

end RunQueue

end CentreonBroker.Notification
