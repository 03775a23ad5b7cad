import CentreonBroker.Notification.RunQueue
import Mathlib.Tactic.Common

/-!
# What the containers of a run queue hold

Run queues are used by name, each beside the set of the actions it is meant to hold. A queue is
consistent when both of its indexes have one entry for each action of its set, and no other.

`remove` leaves the action in the set, `run` indexes an action that is there a second time, and an
assignment leaves the old entries in the indexes. So queues stay consistent exactly as long as no
call does any of the three.
-/

namespace CentreonBroker.Notification

open Function (update)

/-! ## The order of the actions -/

theorem ActionType.eq_of_value {a b : ActionType} (h : a.value = b.value) : a = b := by
  cases a <;> cases b <;> first | rfl | cases h

theorem NodeId.lt_irrefl (a : NodeId) : a.lt a = false := by
  simp [lt]

theorem NodeId.eq_of_not_lt {a b : NodeId} (hab : a.lt b = false) (hba : b.lt a = false) :
    a = b := by
  obtain ⟨h, s⟩ := a
  obtain ⟨h', s'⟩ := b
  simp only [lt] at hab hba
  split at hab <;> split at hba <;> simp_all <;> omega

theorem Action.lt_irrefl (a : Action) : a.lt a = false := by
  simp [lt]

/-- Actions that are equivalent under the order are equal. -/
theorem Action.eq_of_not_lt {a b : Action} (hab : a.lt b = false) (hba : b.lt a = false) :
    a = b := by
  obtain ⟨act, fwd, id, rule, num, time, first⟩ := a
  obtain ⟨act', fwd', id', rule', num', time', first'⟩ := b
  simp only [lt] at hab hba
  by_cases h₁ : act = act'
  · by_cases h₂ : id = id'
    · subst h₁ h₂
      simp only [ne_eq, not_true_eq_false, if_false] at hab hba
      have hfwd : fwd.value = fwd'.value → fwd = fwd' := ActionType.eq_of_value
      split at hab <;> split at hba <;> simp_all <;> grind
    · simp only [h₁, ne_eq, not_true_eq_false, if_false, h₂, not_false_eq_true, if_true,
        Ne.symm h₂] at hab hba
      exact absurd (NodeId.eq_of_not_lt hab hba) h₂
  · simp only [ne_eq, h₁, not_false_eq_true, if_true, Ne.symm h₁] at hab hba
    exact absurd (ActionType.eq_of_value (by simp at hab hba; omega)) h₁

namespace RunQueue

theorem find_eq {q : RunQueue} {a : Action} :
    q.find a = if a ∈ q.actionSet then some a else none := by
  have hequiv : ∀ b, (!a.lt b && !b.lt a) = decide (b = a) := by
    intro b
    by_cases h : b = a
    · subst h
      simp [Action.lt_irrefl]
    · have : ¬(a.lt b = false ∧ b.lt a = false) := fun hlt => h (Action.eq_of_not_lt hlt.2 hlt.1)
      simp only [h, decide_false]
      grind
  simp only [find, hequiv]
  induction q.actionSet with
  | nil => rfl
  | cons b l ih =>
    by_cases h : b = a
    · subst h
      simp
    · rw [List.find?_cons_of_neg (by simp [h]), ih]
      simp [Ne.symm h]

/-- Both indexes have one entry for each action of the set, and no other. -/
structure Consistent (q : RunQueue) : Prop where
  nodup : q.actionSet.Nodup
  byTime : q.actionByTime.Perm (q.actionSet.map fun a => (a.atTime, q.address a))
  byNode : q.actionByNode.Perm (q.actionSet.map fun a => (a.id, q.address a))

theorem Consistent.empty : Consistent {} := ⟨List.nodup_nil, .nil, .nil⟩

theorem Consistent.length_eq {q : RunQueue} (h : q.Consistent) :
    q.actionByTime.length = q.actionSet.length := by
  rw [h.byTime.length_eq, List.length_map]

/-- The multimap by time is in the order of its keys. -/
def Ordered (q : RunQueue) : Prop := q.actionByTime.Pairwise fun e f => e.1 ≤ f.1

theorem Ordered.empty : Ordered {} := List.Pairwise.nil

theorem insertByTime_perm (e : ℤ × Pointer) (l : List (ℤ × Pointer)) :
    (insertByTime e l).Perm (e :: l) := List.perm_orderedInsert _ e l

theorem insertByNode_perm (e : NodeId × Pointer) (l : List (NodeId × Pointer)) :
    (insertByNode e l).Perm (e :: l) := List.perm_orderedInsert _ e l

theorem insertByTime_ordered {e : ℤ × Pointer} {l : List (ℤ × Pointer)}
    (h : l.Pairwise fun e f => e.1 ≤ f.1) : (insertByTime e l).Pairwise fun e f => e.1 ≤ f.1 := by
  induction l with
  | nil => simp [insertByTime]
  | cons f l ih =>
    obtain ⟨hf, hl⟩ := List.pairwise_cons.mp h
    rw [insertByTime, List.orderedInsert]
    split
    · rename_i hlt
      refine List.pairwise_cons.mpr ⟨fun g hg => ?_, h⟩
      rcases List.mem_cons.mp hg with rfl | hg
      · exact hlt.le
      · exact hlt.le.trans (hf g hg)
    · rename_i hge
      refine List.pairwise_cons.mpr ⟨fun g hg => ?_, ih hl⟩
      rcases List.mem_cons.mp ((insertByTime_perm e l).mem_iff.mp hg) with rfl | hg
      · exact not_lt.mp hge
      · exact hf g hg

/-! ## Each operation -/

section Operations

variable {q obj : RunQueue} {a : Action} {time : ℤ}

theorem run_of_not_mem (h : { a with atTime := time } ∉ q.actionSet) (hc : q.Consistent) :
    (q.run time a).Consistent ∧
      ∀ b, b ∈ (q.run time a).actionSet ↔ b = { a with atTime := time } ∨ b ∈ q.actionSet := by
  have hperm := List.perm_orderedInsert (fun a b : Action => a.lt b = true)
    { a with atTime := time } q.actionSet
  have hrun : q.run time a = { q with
      actionSet := q.actionSet.orderedInsert (fun a b => a.lt b = true) { a with atTime := time }
      actionByNode := insertByNode (a.id, q.address { a with atTime := time }) q.actionByNode
      actionByTime := insertByTime (time, q.address { a with atTime := time }) q.actionByTime } := by
    simp only [run, find_eq, if_neg h]
  rw [hrun]
  refine ⟨⟨hperm.nodup_iff.mpr (List.nodup_cons.mpr ⟨h, hc.nodup⟩), ?_, ?_⟩, fun b => ?_⟩
  · refine (insertByTime_perm _ _).trans (.trans ?_ (hperm.map _).symm)
    exact hc.byTime.cons _
  · refine (insertByNode_perm _ _).trans (.trans ?_ (hperm.map _).symm)
    exact hc.byNode.cons _
  · rw [hperm.mem_iff, List.mem_cons]

/-- An action that is in the set is indexed once more. -/
theorem run_of_mem (h : { a with atTime := time } ∈ q.actionSet) :
    (q.run time a).actionSet = q.actionSet ∧
      (q.run time a).actionByTime.length = q.actionByTime.length + 1 := by
  simp only [run, find_eq, if_pos h, (insertByTime_perm _ _).length_eq, List.length_cons, and_self]

theorem Ordered.run (h : q.Ordered) : (q.run time a).Ordered := by
  unfold RunQueue.run
  dsimp only
  split <;> exact insertByTime_ordered h

theorem remove_of_not_mem (h : a ∉ q.actionSet) : q.remove a = q := by
  rw [remove, find_eq, if_neg h]

@[simp] theorem remove_actionSet : (q.remove a).actionSet = q.actionSet := by
  unfold remove
  split <;> rfl

@[simp] theorem remove_age : (q.remove a).age = q.age := by
  unfold remove
  split <;> rfl

theorem remove_length_le : (q.remove a).actionByTime.length ≤ q.actionByTime.length := by
  unfold remove
  split
  · exact Nat.le_refl _
  · exact List.length_eraseP_le

/-- The entry of a removed action leaves the index, and the action stays in the set. -/
theorem remove_length_lt (h : a ∈ q.actionSet) (hc : q.Consistent) :
    (q.remove a).actionByTime.length < q.actionByTime.length := by
  have hmem : (a.atTime, q.address a) ∈ q.actionByTime :=
    hc.byTime.mem_iff.mpr (List.mem_map_of_mem h)
  have hpos := List.length_pos_of_mem hmem
  rw [remove, find_eq, if_pos h]
  dsimp only
  rw [List.length_eraseP_of_mem hmem (by simp)]
  omega

theorem Ordered.remove (h : q.Ordered) : (q.remove a).Ordered := by
  unfold RunQueue.remove
  split
  · exact h
  · exact h.sublist List.eraseP_sublist

/-- The rebuilt indexes have the entries of the set, after those that were there. -/
theorem rebuildSet_spec (q : RunQueue) :
    (rebuildSet q).age = q.age ∧ (rebuildSet q).actionSet = q.actionSet ∧
    (rebuildSet q).actionByTime.Perm
      ((q.actionSet.map fun a => (a.atTime, q.address a)) ++ q.actionByTime) ∧
    (rebuildSet q).actionByNode.Perm
      ((q.actionSet.map fun a => (a.id, q.address a)) ++ q.actionByNode) ∧
    (q.Ordered → (rebuildSet q).Ordered) := by
  -- the loop over the actions that are left, from what it has built so far
  have hloop : ∀ (l : List Action) (r : RunQueue),
      let r' := l.foldl (fun q' a =>
        { q' with
          actionByTime := insertByTime (a.atTime, q.address a) q'.actionByTime
          actionByNode := insertByNode (a.id, q.address a) q'.actionByNode }) r
      r'.age = r.age ∧ r'.actionSet = r.actionSet ∧
      r'.actionByTime.Perm ((l.map fun a => (a.atTime, q.address a)) ++ r.actionByTime) ∧
      r'.actionByNode.Perm ((l.map fun a => (a.id, q.address a)) ++ r.actionByNode) ∧
      (r.Ordered → r'.Ordered) := by
    intro l
    induction l with
    | nil => exact fun r => ⟨rfl, rfl, .refl _, .refl _, id⟩
    | cons a l ih =>
      intro r
      obtain ⟨hage, hset, htime, hnode, hord⟩ := ih
        { r with
          actionByTime := insertByTime (a.atTime, q.address a) r.actionByTime
          actionByNode := insertByNode (a.id, q.address a) r.actionByNode }
      refine ⟨hage, hset, ?_, ?_, fun h => hord (insertByTime_ordered h)⟩
      · exact htime.trans (((insertByTime_perm _ _).append_left _).trans List.perm_middle)
      · exact hnode.trans (((insertByNode_perm _ _).append_left _).trans List.perm_middle)
  exact hloop q.actionSet q

theorem assign_actionSet : (assign q obj).actionSet = obj.actionSet := (rebuildSet_spec _).2.1

theorem Ordered.assign (h : q.Ordered) : (assign q obj).Ordered := (rebuildSet_spec _).2.2.2.2 h

/-- An assignment to a queue that is empty gives the actions of its source. -/
theorem assign_of_empty (htime : q.actionByTime = []) (hnode : q.actionByNode = [])
    (hobj : obj.Consistent) : (assign q obj).Consistent := by
  obtain ⟨hage, hset, ht, hn, -⟩ :=
    rebuildSet_spec { q with age := q.age + 1, actionSet := obj.actionSet }
  have haddress : (assign q obj).address = address
      { q with age := q.age + 1, actionSet := obj.actionSet } := by
    funext a
    exact congrArg (Pointer.mk · a) hage
  refine ⟨by rw [assign_actionSet]; exact hobj.nodup, ?_, ?_⟩
  · rw [assign_actionSet, haddress]
    refine ht.trans (.of_eq ?_)
    dsimp only
    rw [htime, List.append_nil]
  · rw [assign_actionSet, haddress]
    refine hn.trans (.of_eq ?_)
    dsimp only
    rw [hnode, List.append_nil]

/-- An assignment keeps the entries that were there, which point to nothing any more. -/
theorem assign_length :
    (assign q obj).actionByTime.length = obj.actionSet.length + q.actionByTime.length := by
  have h := (rebuildSet_spec { q with age := q.age + 1, actionSet := obj.actionSet }).2.2.1
  rw [assign, h.length_eq, List.length_append, List.length_map]

theorem Consistent.of_deref {p : Pointer} {e : ℤ} (h : q.Consistent)
    (hmem : (e, p) ∈ q.actionByTime) : ∃ a ∈ q.actionSet, q.deref p = some a ∧ a.atTime = e := by
  obtain ⟨a, ha, heq⟩ := List.mem_map.mp (h.byTime.mem_iff.mp hmem)
  cases heq
  exact ⟨a, ha, if_pos ⟨rfl, ha⟩, rfl⟩

theorem removeFirst_of_cons {e : ℤ × Pointer} {l : List (ℤ × Pointer)} (hc : q.Consistent)
    (h : q.actionByTime = e :: l) : ∃ a ∈ q.actionSet, q.removeFirst = some (q.remove a) := by
  obtain ⟨a, ha, hderef, -⟩ := hc.of_deref (e := e.1) (p := e.2) (by simp [h])
  exact ⟨a, ha, by simp [removeFirst, h, hderef]⟩

theorem moveLoop_ordered {es : List (ℤ × Pointer)} {q' obj' : RunQueue} (hq : q.Ordered)
    (hobj : obj.Ordered) (h : moveLoop time es q obj = some (q', obj')) :
    q'.Ordered ∧ obj'.Ordered ∧ q'.actionSet = q.actionSet ∧
      q'.actionByTime.length ≤ q.actionByTime.length := by
  induction es generalizing q obj with
  | nil =>
    cases h
    exact ⟨hq, hobj, rfl, Nat.le_refl _⟩
  | cons e es ih =>
    rw [moveLoop] at h
    split at h
    · obtain ⟨a, -, h⟩ := Option.bind_eq_some_iff.mp h
      obtain ⟨hq', hobj', hset, hlength⟩ := ih hq.remove hobj.run h
      exact ⟨hq', hobj', hset.trans remove_actionSet, hlength.trans remove_length_le⟩
    · cases h
      exact ⟨hq, hobj, rfl, Nat.le_refl _⟩

/-- Where no action is due, nothing moves. -/
theorem moveToQueue_of_late (h : ∀ e ∈ q.actionByTime, time < e.1) :
    q.moveToQueue obj time = some (q, obj) := by
  unfold moveToQueue
  cases hl : q.actionByTime with
  | nil => rfl
  | cons e l => rw [moveLoop, if_neg (not_le.mpr (h e (by simp [hl])))]

/-- Where the first action is due, the queue it is moved from keeps it in its set. -/
theorem moveToQueue_length_lt {e : ℤ × Pointer} {l : List (ℤ × Pointer)} {q' obj' : RunQueue}
    (hc : q.Consistent) (hq : q.Ordered) (hobj : obj.Ordered) (hl : q.actionByTime = e :: l)
    (he : e.1 ≤ time) (h : q.moveToQueue obj time = some (q', obj')) :
    q'.actionSet = q.actionSet ∧ q'.actionByTime.length < q.actionByTime.length := by
  obtain ⟨a, ha, hderef, -⟩ := hc.of_deref (e := e.1) (p := e.2) (by simp [hl])
  rw [moveToQueue, hl, moveLoop, if_pos he, hderef] at h
  obtain ⟨-, -, hset, hlength⟩ := moveLoop_ordered hq.remove hobj.run h
  exact ⟨hset.trans remove_actionSet, hlength.trans_lt (remove_length_lt ha hc)⟩

end Operations

end RunQueue

/-! ## Queues by name -/

/-- The run queues, each beside the actions it is meant to hold. -/
structure World (ι : Type) where
  queues : ι → RunQueue
  held : ι → Set Action

/-- What is done with run queues. `copy i j` makes a new `i` out of `j`. -/
inductive Op (ι : Type) where
  | run (i : ι) (time : ℤ) (a : Action)
  | remove (i : ι) (a : Action)
  | removeFirst (i : ι)
  | moveToQueue (i j : ι) (time : ℤ)
  | copy (i j : ι)
  | assign (i j : ι)

namespace World

open RunQueue

variable {ι : Type} [DecidableEq ι]

/-- Every queue was just constructed. -/
def start : World ι := ⟨fun _ => {}, fun _ => ∅⟩

/--
One operation. It has no result where a pointer to nothing is followed, or where a queue that has
due actions is moved to itself, which does not end.
-/
def step (w : World ι) : Op ι → Option (World ι)
  | .run i time a =>
    some ⟨update w.queues i ((w.queues i).run time a),
      update w.held i (insert { a with atTime := time } (w.held i))⟩
  | .remove i a =>
    some ⟨update w.queues i ((w.queues i).remove a), update w.held i (w.held i \ {a})⟩
  | .removeFirst i =>
    (w.queues i).removeFirst.map fun q =>
      ⟨update w.queues i q, update w.held i { b ∈ w.held i | (w.queues i).first ≠ some b }⟩
  | .moveToQueue i j time =>
    if i = j then
      if (w.queues i).actionByTime.head?.any fun e => e.1 ≤ time then none else some w
    else
      ((w.queues i).moveToQueue (w.queues j) time).map fun r =>
        ⟨update (update w.queues i r.1) j r.2,
          update (update w.held i { b ∈ w.held i | time < b.atTime }) j
            (w.held j ∪ { b ∈ w.held i | b.atTime ≤ time })⟩
  | .copy i j => some ⟨update w.queues i (w.queues j).copy, update w.held i (w.held j)⟩
  | .assign i j =>
    if i = j then some w
    else some ⟨update w.queues i ((w.queues i).assign (w.queues j)), update w.held i (w.held j)⟩

/-- Every queue is consistent, and holds the actions it is meant to hold. -/
def Good (w : World ι) : Prop :=
  ∀ i, (w.queues i).Consistent ∧ ∀ a, a ∈ (w.queues i).actionSet ↔ a ∈ w.held i

/-- Every state of the run is good. -/
def GoodRun : World ι → List (Op ι) → Prop
  | w, [] => w.Good
  | w, op :: ops => w.Good ∧ ∃ w', w.step op = some w' ∧ w'.GoodRun ops

/--
The operation removes nothing, runs no action that is in its queue, and assigns to no queue that
holds something, unless it is its own source.
-/
def Harmless (w : World ι) : Op ι → Prop
  | .run i time a => { a with atTime := time } ∉ (w.queues i).actionSet
  | .remove i a => a ∉ (w.queues i).actionSet
  | .removeFirst i => (w.queues i).actionByTime = []
  | .moveToQueue i _ time => ∀ e ∈ (w.queues i).actionByTime, time < e.1
  | .copy _ _ => True
  | .assign i j => i = j ∨ (w.queues i).actionByTime = []

/-- Every operation is harmless in the state where it is done. -/
def HarmlessRun : World ι → List (Op ι) → Prop
  | _, [] => True
  | w, op :: ops => w.Harmless op ∧ ∀ w', w.step op = some w' → w'.HarmlessRun ops

def Ordered (w : World ι) : Prop := ∀ i, (w.queues i).Ordered

omit [DecidableEq ι] in
theorem good_start : (start : World ι).Good := by
  intro i
  refine ⟨.empty, fun a => ?_⟩
  simp [start]

omit [DecidableEq ι] in
theorem ordered_start : (start : World ι).Ordered := fun _ => RunQueue.Ordered.empty

variable {w : World ι}

omit [DecidableEq ι] in
theorem Good.held_time (h : w.Good) {i : ι} {a : Action} (ha : a ∈ w.held i) :
    ∃ e ∈ (w.queues i).actionByTime, e.1 = a.atTime := by
  have hmem := ((h i).2 a).mpr ha
  exact ⟨_, (h i).1.byTime.mem_iff.mpr (List.mem_map_of_mem hmem), rfl⟩

/-- Changing one queue, and what it is meant to hold, into good ones. -/
theorem Good.update (h : w.Good) (i : ι) {q : RunQueue} {s : Set Action}
    (hq : q.Consistent) (hs : ∀ a, a ∈ q.actionSet ↔ a ∈ s) :
    Good ⟨Function.update w.queues i q, Function.update w.held i s⟩ := by
  intro k
  by_cases hk : k = i
  · subst hk
    simpa using ⟨hq, hs⟩
  · simpa [hk] using h k

theorem Ordered.update (h : w.Ordered) (i : ι) {q : RunQueue} (hq : q.Ordered)
    (held : ι → Set Action) : Ordered ⟨Function.update w.queues i q, held⟩ := by
  intro k
  by_cases hk : k = i
  · subst hk
    simpa using hq
  · simpa [hk] using h k

theorem Ordered.step {w' : World ι} (h : w.Ordered) {op : Op ι} (hs : w.step op = some w') :
    w'.Ordered := by
  cases op with
  | run i time a =>
    cases hs
    exact h.update i (h i).run _
  | remove i a =>
    cases hs
    exact h.update i (h i).remove _
  | removeFirst i =>
    obtain ⟨q, hq, rfl⟩ := Option.map_eq_some_iff.mp hs
    refine h.update i ?_ _
    unfold RunQueue.removeFirst at hq
    split at hq
    · cases hq
      exact h i
    · obtain ⟨a, -, rfl⟩ := Option.map_eq_some_iff.mp hq
      exact (h i).remove
  | moveToQueue i j time =>
    simp only [World.step] at hs
    split at hs
    · split at hs
      · cases hs
      · cases hs
        exact h
    · obtain ⟨r, hr, rfl⟩ := Option.map_eq_some_iff.mp hs
      obtain ⟨hi, hj, -⟩ := moveLoop_ordered (h i) (h j) hr
      exact (h.update i hi w.held).update j hj _
  | copy i j =>
    cases hs
    exact h.update i (RunQueue.Ordered.assign RunQueue.Ordered.empty) _
  | assign i j =>
    simp only [World.step] at hs
    split at hs <;> cases hs
    · exact h
    · exact h.update i (h i).assign _

/-- A harmless operation has a result, and keeps the queues good. -/
theorem Good.step (h : w.Good) {op : Op ι} (hop : w.Harmless op) :
    ∃ w', w.step op = some w' ∧ w'.Good := by
  cases op with
  | run i time a =>
    obtain ⟨hq, hmem⟩ := run_of_not_mem hop (h i).1
    refine ⟨_, rfl, h.update i hq fun b => ?_⟩
    rw [hmem, Set.mem_insert_iff, (h i).2]
  | remove i a =>
    refine ⟨_, rfl, h.update i ?_ fun b => ?_⟩
    · rw [remove_of_not_mem hop]
      exact (h i).1
    · rw [remove_of_not_mem hop, (h i).2, Set.mem_sdiff, Set.mem_singleton_iff]
      refine ⟨fun hb => ⟨hb, ?_⟩, And.left⟩
      rintro rfl
      exact hop (((h i).2 b).mpr hb)
  | removeFirst i =>
    have hfirst : (w.queues i).removeFirst = some (w.queues i) := by
      rw [RunQueue.removeFirst, show (w.queues i).actionByTime = [] from hop]
    refine ⟨_, by rw [World.step, hfirst]; rfl, h.update i (h i).1 fun b => ?_⟩
    have hnone : (w.queues i).first = none := by
      rw [RunQueue.first, show (w.queues i).actionByTime = [] from hop]
      rfl
    simp [(h i).2, hnone]
  | moveToQueue i j time =>
    have hlate : ∀ b ∈ w.held i, time < b.atTime := by
      intro b hb
      obtain ⟨e, he, heq⟩ := h.held_time hb
      exact heq ▸ hop e he
    by_cases hij : i = j
    · have hdue : ((w.queues i).actionByTime.head?.any fun e => decide (e.1 ≤ time)) = false := by
        cases hl : (w.queues i).actionByTime with
        | nil => rfl
        | cons e l => simpa using hop e (by simp [hl])
      exact ⟨w, by simp [World.step, hij ▸ hdue, hij], h⟩
    · refine ⟨_, by rw [World.step, if_neg hij, moveToQueue_of_late hop]; rfl,
        (h.update i (h i).1 fun b => ?_).update j (h j).1 fun b => ?_⟩
      · rw [(h i).2]
        exact ⟨fun hb => ⟨hb, hlate b hb⟩, And.left⟩
      · rw [(h j).2]
        refine ⟨.inl, fun hb => hb.resolve_right fun ⟨hb, hle⟩ => ?_⟩
        exact absurd (hlate b hb) (not_lt.mpr hle)
  | copy i j =>
    refine ⟨_, rfl, h.update i ?_ fun b => ?_⟩
    · exact assign_of_empty rfl rfl (h j).1
    · rw [RunQueue.copy, assign_actionSet, (h j).2]
  | assign i j =>
    by_cases hij : i = j
    · exact ⟨w, by rw [World.step, if_pos hij], h⟩
    · have htime : (w.queues i).actionByTime = [] := hop.resolve_left hij
      have hset : (w.queues i).actionSet = [] := by
        rw [← List.length_eq_zero_iff, ← (h i).1.length_eq, htime]
        rfl
      have hnode : (w.queues i).actionByNode = [] := by
        have := (h i).1.byNode
        rw [hset] at this
        exact this.eq_nil
      refine ⟨_, by rw [World.step, if_neg hij], h.update i ?_ fun b => ?_⟩
      · exact assign_of_empty htime hnode (h j).1
      · rw [assign_actionSet, (h j).2]

/-- After an operation that is not harmless, a queue is not consistent any more. -/
theorem Good.harmless {w' : World ι} (h : w.Good) (ho : w.Ordered) {op : Op ι}
    (hs : w.step op = some w') (h' : w'.Good) : w.Harmless op := by
  cases op with
  | run i time a =>
    cases hs
    intro hmem
    have hlength := (h' i).1.length_eq
    obtain ⟨hset, htime⟩ := run_of_mem hmem
    simp only [Function.update_self, hset, htime, (h i).1.length_eq] at hlength
    omega
  | remove i a =>
    cases hs
    intro hmem
    have hlength := (h' i).1.length_eq
    have hlt := remove_length_lt hmem (h i).1
    simp only [Function.update_self, remove_actionSet, ← (h i).1.length_eq] at hlength
    omega
  | removeFirst i =>
    obtain ⟨q, hq, rfl⟩ := Option.map_eq_some_iff.mp hs
    cases hl : (w.queues i).actionByTime with
    | nil => exact hl
    | cons e l =>
      obtain ⟨a, ha, heq⟩ := removeFirst_of_cons (h i).1 hl
      obtain rfl := Option.some.inj (heq.symm.trans hq)
      have hlength := (h' i).1.length_eq
      have hlt := remove_length_lt ha (h i).1
      simp only [Function.update_self, remove_actionSet, ← (h i).1.length_eq] at hlength
      omega
  | moveToQueue i j time =>
    intro e he
    by_contra hle
    cases hl : (w.queues i).actionByTime with
    | nil => simp [hl] at he
    | cons f l =>
      -- the first entry is due when any is
      have hf : f.1 ≤ time := by
        have hord := ho i
        rw [RunQueue.Ordered, hl] at hord
        rcases List.mem_cons.mp (hl ▸ he) with rfl | he
        · exact not_lt.mp hle
        · exact ((List.pairwise_cons.mp hord).1 e he).trans (not_lt.mp hle)
      simp only [World.step] at hs
      split at hs
      · simp [hl, hf] at hs
      · rename_i hij
        obtain ⟨⟨q, obj⟩, hr, rfl⟩ := Option.map_eq_some_iff.mp hs
        obtain ⟨hset, hlt⟩ := moveToQueue_length_lt (h i).1 (ho i) (ho j) hl hf hr
        have hlength := (h' i).1.length_eq
        simp only [Function.update_of_ne hij, Function.update_self, hset, ← (h i).1.length_eq]
          at hlength
        omega
  | copy i j => trivial
  | assign i j =>
    by_cases hij : i = j
    · exact .inl hij
    · rw [World.step, if_neg hij] at hs
      cases hs
      have hlength := (h' i).1.length_eq
      simp only [Function.update_self, assign_length, assign_actionSet] at hlength
      exact .inr (List.length_eq_zero_iff.mp (by omega))

variable {ops : List (Op ι)}

theorem goodRun_of_harmlessRun (h : w.Good)
    (hr : w.HarmlessRun ops) : w.GoodRun ops := by
  induction ops generalizing w with
  | nil => exact h
  | cons op ops ih =>
    obtain ⟨w', hs, h'⟩ := h.step hr.1
    exact ⟨h, w', hs, ih h' (hr.2 w' hs)⟩

theorem GoodRun.good (h : w.GoodRun ops) : w.Good := by
  cases ops with
  | nil => exact h
  | cons op ops => exact h.1

theorem harmlessRun_of_goodRun (ho : w.Ordered)
    (hr : w.GoodRun ops) : w.HarmlessRun ops := by
  induction ops generalizing w with
  | nil => trivial
  | cons op ops ih =>
    obtain ⟨h, w', hs, hr'⟩ := hr
    refine ⟨h.harmless ho hs hr'.good, fun w'' hs' => ?_⟩
    obtain rfl := Option.some.inj (hs.symm.trans hs')
    exact ih (ho.step hs) hr'

end World

/--
The containers of every run queue describe the actions it is meant to hold all along a run, with
each of them once in each index, exactly when every operation of the run is harmless.
-/
theorem goodRun_iff {ι : Type} [DecidableEq ι] (ops : List (Op ι)) :
    World.start.GoodRun ops ↔ World.start.HarmlessRun ops :=
  ⟨World.harmlessRun_of_goodRun World.ordered_start, World.goodRun_of_harmlessRun World.good_start⟩

/-- The copy of a queue holds again what was removed from the queue. -/
theorem not_goodRun :
    ¬ ∀ ops : List (Op ℕ), World.start.GoodRun ops := by
  intro h
  obtain ⟨-, w, hs, -, w', hs', -, w'', hs'', hgood⟩ := h [.run 0 10 {}, .remove 0 { atTime := 10 }, .copy 1 0]
  cases hs
  cases hs'
  cases hs''
  have := ((hgood 1).2 { atTime := 10 }).mp (by decide)
  simp at this

end CentreonBroker.Notification
