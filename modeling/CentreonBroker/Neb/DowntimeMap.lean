import CentreonBroker.Lib.Indexed
import CentreonBroker.Lib.Runs
import CentreonBroker.Neb.Downtime

/-!
# The map of downtimes

`downtime_map` has the downtimes by their internal ids and, in a map that accepts duplicates, their
ids by the nodes; and the same again for recurring downtimes. It gives out ids, from a counter that
is moved when a downtime with a greater id is added.
-/

namespace CentreonBroker.Neb

/-- `downtime_map`. -/
structure DowntimeMap where
  actualDowntimeId : UInt32
  /-- `_downtimes`, and `_downtime_id_by_nodes`. -/
  downtimes : Indexed Downtime.internalId NodeId
  /-- `_recurring_downtimes`, and `_recurring_downtime_id_by_nodes`. -/
  recurring : Indexed Downtime.internalId NodeId

namespace DowntimeMap

/-- The default constructor. -/
def empty : DowntimeMap := ⟨1, .empty, .empty⟩

/-- `get_new_downtime_id`. -/
def getNewDowntimeId (m : DowntimeMap) : UInt32 × DowntimeMap :=
  (m.actualDowntimeId, { m with actualDowntimeId := m.actualDowntimeId + 1 })

/-- `get_all_downtimes_of_node`, none if it throws. -/
def getAllDowntimesOfNode (m : DowntimeMap) (id : NodeId) : Option (List Downtime) :=
  m.downtimes.atAttr id

/-- `get_all_recurring_downtimes_of_node`, none if it throws. -/
def getAllRecurringDowntimesOfNode (m : DowntimeMap) (id : NodeId) : Option (List Downtime) :=
  m.recurring.atAttr id

/-- `delete_downtime`. -/
def deleteDowntime (m : DowntimeMap) (dwn : Downtime) : DowntimeMap :=
  { m with
    downtimes := m.downtimes.erase dwn.node dwn.internalId
    recurring := m.recurring.erase dwn.node dwn.internalId }

/-- The beginning of `add_downtime`. -/
def insertDowntime (m : DowntimeMap) (dwn : Downtime) : DowntimeMap :=
  if ¬ dwn.isRecurring then { m with downtimes := m.downtimes.insert Downtime.node dwn }
  else { m with recurring := m.recurring.insert Downtime.node dwn }

/-- `add_downtime`. -/
def addDowntime (m : DowntimeMap) (dwn : Downtime) : DowntimeMap :=
  let m := m.insertDowntime dwn
  if m.actualDowntimeId < dwn.internalId then { m with actualDowntimeId := dwn.internalId + 1 }
  else m

/-- What is done to a map. -/
inductive Op where
  | addDowntime (dwn : Downtime)
  | deleteDowntime (dwn : Downtime)
  | getNewDowntimeId

def step (m : DowntimeMap) : Op → DowntimeMap
  | .addDowntime dwn => m.addDowntime dwn
  | .deleteDowntime dwn => m.deleteDowntime dwn
  | .getNewDowntimeId => m.getNewDowntimeId.2

/-- A downtime with that id is in one of the maps. -/
def Stored (m : DowntimeMap) (id : UInt32) : Prop :=
  m.downtimes.stored id ≠ none ∨ m.recurring.stored id ≠ none

/-- The maps, the indexes and the counter are in step. -/
structure Consistent (m : DowntimeMap) : Prop where
  downtimes : m.downtimes.Matches Downtime.node
  recurring : m.recurring.Matches Downtime.node
  /-- The downtimes of a node are read without an error, each once. -/
  ofNode : ∀ id, ∃ l, m.getAllDowntimesOfNode id = some l ∧ l.Nodup ∧
    ∀ d, d ∈ l ↔ m.downtimes.stored d.internalId = some d ∧ d.node = id
  recurringOfNode : ∀ id, ∃ l, m.getAllRecurringDowntimesOfNode id = some l ∧ l.Nodup ∧
    ∀ d, d ∈ l ↔ m.recurring.stored d.internalId = some d ∧ d.node = id
  fresh : ¬ m.Stored m.getNewDowntimeId.1

/-- What is asked of a step. -/
def StepOk (m : DowntimeMap) : Op → Prop
  | .addDowntime dwn =>
    (if ¬ dwn.isRecurring then m.downtimes else m.recurring).stored dwn.internalId = none ∧
      dwn.internalId ≠ m.actualDowntimeId ∧
      (m.actualDowntimeId < dwn.internalId → ¬ m.Stored (dwn.internalId + 1))
  | .deleteDowntime dwn =>
    (∀ d, m.downtimes.stored dwn.internalId = some d → d.node = dwn.node) ∧
      ∀ d, m.recurring.stored dwn.internalId = some d → d.node = dwn.node
  | .getNewDowntimeId => ¬ m.Stored (m.actualDowntimeId + 1)

variable {m : DowntimeMap} {dwn : Downtime}

/-- What is read follows from the indexes. -/
theorem consistent_iff : m.Consistent ↔ m.downtimes.Matches Downtime.node ∧
    m.recurring.Matches Downtime.node ∧ ¬ m.Stored m.actualDowntimeId :=
  ⟨fun h => ⟨h.downtimes, h.recurring, h.fresh⟩, fun ⟨h, h', hfresh⟩ =>
    ⟨h, h', h.atAttr, h'.atAttr, hfresh⟩⟩

theorem consistent_empty : empty.Consistent :=
  consistent_iff.mpr ⟨Indexed.matches_empty, Indexed.matches_empty,
    by simp [Stored, empty, Indexed.empty]⟩

/-! ## One operation -/

@[simp] theorem counter_insertDowntime :
    (m.insertDowntime dwn).actualDowntimeId = m.actualDowntimeId := by
  unfold insertDowntime
  split <;> rfl

theorem counter_addDowntime : (m.addDowntime dwn).actualDowntimeId =
    if m.actualDowntimeId < dwn.internalId then dwn.internalId + 1 else m.actualDowntimeId := by
  rw [addDowntime, ← @counter_insertDowntime m dwn]
  split <;> rfl

theorem downtimes_addDowntime : (m.addDowntime dwn).downtimes =
    if ¬ dwn.isRecurring then m.downtimes.insert Downtime.node dwn else m.downtimes := by
  have hmoved : (m.addDowntime dwn).downtimes = (m.insertDowntime dwn).downtimes := by
    rw [addDowntime]
    split <;> rfl
  rw [hmoved, insertDowntime]
  split <;> rfl

theorem recurring_addDowntime : (m.addDowntime dwn).recurring =
    if ¬ dwn.isRecurring then m.recurring else m.recurring.insert Downtime.node dwn := by
  have hmoved : (m.addDowntime dwn).recurring = (m.insertDowntime dwn).recurring := by
    rw [addDowntime]
    split <;> rfl
  rw [hmoved, insertDowntime]
  split <;> rfl

theorem stored_insert_ne_none {t : Indexed Downtime.internalId NodeId} {id : UInt32} :
    (t.insert Downtime.node dwn).stored id ≠ none ↔ t.stored id ≠ none ∨ id = dwn.internalId := by
  by_cases hnone : t.stored dwn.internalId = none
  · rw [Indexed.stored_insert hnone]
    by_cases hid : id = dwn.internalId
    · simp [hid]
    · simp [hid]
  · rw [Indexed.stored_insert_of_ne hnone]
    exact ⟨.inl, fun h => h.elim (fun h => h) fun he => he ▸ hnone⟩

theorem stored_addDowntime {id : UInt32} :
    (m.addDowntime dwn).Stored id ↔ m.Stored id ∨ id = dwn.internalId := by
  rw [Stored, Stored, downtimes_addDowntime, recurring_addDowntime]
  split
  · rw [stored_insert_ne_none, or_right_comm]
  · rw [stored_insert_ne_none, or_assoc]

theorem stored_deleteDowntime {id : UInt32} :
    (m.deleteDowntime dwn).Stored id ↔ m.Stored id ∧ id ≠ dwn.internalId := by
  have herase : ∀ t : Indexed Downtime.internalId NodeId,
      (t.erase dwn.node dwn.internalId).stored id ≠ none ↔
        t.stored id ≠ none ∧ id ≠ dwn.internalId := by
    intro t
    by_cases hid : id = dwn.internalId
    · rw [hid, Indexed.stored_erase_self]
      simp
    · rw [Indexed.stored_erase_of_ne hid]
      simp [hid]
  rw [Stored, Stored, deleteDowntime, herase, herase, or_and_right]

/-- The indexes stay right when the downtime is not in its map. -/
theorem matches_addDowntime_iff (h : m.Consistent) :
    ((m.addDowntime dwn).downtimes.Matches Downtime.node ∧
        (m.addDowntime dwn).recurring.Matches Downtime.node) ↔
      (if ¬ dwn.isRecurring then m.downtimes else m.recurring).stored dwn.internalId = none := by
  rw [downtimes_addDowntime, recurring_addDowntime]
  split
  · rw [Indexed.matches_insert_iff h.downtimes, and_iff_left h.recurring]
  · rw [Indexed.matches_insert_iff h.recurring, and_iff_right h.downtimes]

/-- The counter stays fresh when it was not reached, or passed to what is not there. -/
theorem fresh_addDowntime_iff (h : m.Consistent) :
    ¬ (m.addDowntime dwn).Stored (m.addDowntime dwn).actualDowntimeId ↔
      dwn.internalId ≠ m.actualDowntimeId ∧
        (m.actualDowntimeId < dwn.internalId → ¬ m.Stored (dwn.internalId + 1)) := by
  have hfresh : ¬ m.Stored m.actualDowntimeId := h.fresh
  have hsucc : dwn.internalId + 1 ≠ dwn.internalId := by grind
  rw [stored_addDowntime, counter_addDowntime, not_or]
  split
  · rename_i hlt
    exact ⟨fun ⟨hstored, _⟩ => ⟨(UInt32.ne_of_lt hlt).symm, fun _ => hstored⟩,
      fun ⟨_, hstored⟩ => ⟨hstored hlt, hsucc⟩⟩
  · rename_i hle
    exact ⟨fun ⟨_, hne⟩ => ⟨Ne.symm hne, fun hlt => absurd hlt hle⟩,
      fun ⟨hne, _⟩ => ⟨hfresh, Ne.symm hne⟩⟩

theorem consistent_step_iff {op : Op} (h : m.Consistent) :
    (m.step op).Consistent ↔ m.StepOk op := by
  cases op with
  | addDowntime dwn =>
    have hiff := @matches_addDowntime_iff m dwn h
    rw [step, StepOk, consistent_iff, ← and_assoc, hiff, fresh_addDowntime_iff h]
  | deleteDowntime dwn =>
    have hfresh : ¬ (m.deleteDowntime dwn).Stored m.actualDowntimeId :=
      fun hstored => h.fresh (stored_deleteDowntime.mp hstored).1
    rw [step, StepOk, consistent_iff, ← Indexed.matches_erase_iff h.downtimes,
      ← Indexed.matches_erase_iff h.recurring]
    exact ⟨fun ⟨hd, hr, _⟩ => ⟨hd, hr⟩, fun ⟨hd, hr⟩ => ⟨hd, hr, hfresh⟩⟩
  | getNewDowntimeId =>
    rw [step, StepOk, consistent_iff]
    exact ⟨fun ⟨_, _, hfresh⟩ => hfresh, fun hfresh => ⟨h.downtimes, h.recurring, hfresh⟩⟩

/-! ## Runs -/

/-- **The map of downtimes.** The indexes have an entry for each downtime and the counter is at an
id that is not used, throughout a run, if and only if each downtime that is added is not there yet
and is not at the counter, each that is deleted is of the node that it was added for, and the
counter does not come upon an id that is used when it goes on. -/
theorem consistent_throughout_iff (ops : List Op) :
    Throughout step Consistent empty ops ↔ EachStep step StepOk empty ops :=
  throughout_iff_eachStep (fun _ _ => consistent_step_iff) consistent_empty ops

/-- A downtime of a host is added, and once more. -/
def addedTwice : List Op :=
  [.addDowntime { internalId := 5, hostId := 1 }, .addDowntime { internalId := 5, hostId := 1 }]

/-- The host has that downtime twice. -/
theorem not_consistent_throughout : ¬ ∀ ops, Throughout step Consistent empty ops := by
  intro h
  have hcount := (h addedTwice).2.2.downtimes ⟨1, 0⟩ 5
  exact absurd hcount (by decide)

end DowntimeMap

end CentreonBroker.Neb
