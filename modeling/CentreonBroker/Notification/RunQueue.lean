import Mathlib.Data.Int.Notation
import Mathlib.Data.List.Sort
import Mathlib.Data.Set.Insert
import Mathlib.Logic.Function.Basic

/-!
# The run queue of the notifications

A `run_queue` owns its actions in `_action_set`, and finds them again by their time and by their
node through two multimaps of pointers into this set.

The pointer of an element lives until the set is assigned, so it is modelled by the element and by
the number of times the set was assigned before.
-/

namespace CentreonBroker.Notification

/-- `action::action_type`. -/
inductive ActionType where
  | unknown
  | notificationProcessing
  | notificationAttempt
  | notificationUp
  | notificationAck
  | notificationDowntime
deriving DecidableEq

/-- The value of the enumerator. -/
def ActionType.value : ActionType → ℕ
  | .unknown => 0
  | .notificationProcessing => 1
  | .notificationAttempt => 2
  | .notificationUp => 3
  | .notificationAck => 4
  | .notificationDowntime => 5

/-- `objects::node_id`. -/
structure NodeId where
  hostId : ℕ
  serviceId : ℕ
deriving DecidableEq

/-- `node_id::operator<`. -/
def NodeId.lt (a b : NodeId) : Bool :=
  if a.hostId ≠ b.hostId then a.hostId < b.hostId else a.serviceId < b.serviceId

/-- `action`, with `_at` as `atTime`. -/
structure Action where
  act : ActionType := .unknown
  forwardedAction : ActionType := .unknown
  id : NodeId := ⟨0, 0⟩
  notificationRuleId : ℕ := 0
  notificationNumber : ℕ := 0
  atTime : ℤ := 0
  firstTimeOfNotification : ℤ := 0
deriving DecidableEq

/-- `action::operator<`. -/
def Action.lt (a b : Action) : Bool :=
  if a.act ≠ b.act then a.act.value < b.act.value
  else if a.id ≠ b.id then a.id.lt b.id
  else if a.notificationRuleId ≠ b.notificationRuleId then
    a.notificationRuleId < b.notificationRuleId
  else if a.notificationNumber ≠ b.notificationNumber then
    a.notificationNumber < b.notificationNumber
  else if a.atTime ≠ b.atTime then a.atTime < b.atTime
  else if a.firstTimeOfNotification ≠ b.firstTimeOfNotification then
    a.firstTimeOfNotification < b.firstTimeOfNotification
  else a.forwardedAction.value < b.forwardedAction.value

/-- A pointer into `_action_set`. -/
structure Pointer where
  age : ℕ
  target : Action
deriving DecidableEq

/-- `run_queue`. `age` counts the assignments of `_action_set`. -/
structure RunQueue where
  age : ℕ := 0
  actionSet : List Action := []
  actionByTime : List (ℤ × Pointer) := []
  actionByNode : List (NodeId × Pointer) := []

namespace RunQueue

/-- `_action_set.find`, for elements that are equivalent under `operator<`. -/
def find (q : RunQueue) (a : Action) : Option Action :=
  q.actionSet.find? fun b => !a.lt b && !b.lt a

/-- The address of an element of `_action_set`. -/
def address (q : RunQueue) (a : Action) : Pointer := ⟨q.age, a⟩

/-- The element at an address, if it is still there. -/
def deref (q : RunQueue) (p : Pointer) : Option Action :=
  if p.age = q.age ∧ p.target ∈ q.actionSet then some p.target else none

/-- `_action_by_time.insert`, after the entries of the same time. -/
def insertByTime (e : ℤ × Pointer) (l : List (ℤ × Pointer)) : List (ℤ × Pointer) :=
  l.orderedInsert (fun e f => e.1 < f.1) e

/-- `_action_by_node.insert`, after the entries of the same node. -/
def insertByNode (e : NodeId × Pointer) (l : List (NodeId × Pointer)) :
    List (NodeId × Pointer) :=
  l.orderedInsert (fun e f => e.1.lt f.1 = true) e

/-- `_rebuild_set`. -/
def rebuildSet (q : RunQueue) : RunQueue :=
  q.actionSet.foldl (fun q' a =>
    { q' with
      actionByTime := insertByTime (a.atTime, q.address a) q'.actionByTime
      actionByNode := insertByNode (a.id, q.address a) q'.actionByNode }) q

/-- `operator=`, from another object. -/
def assign (q obj : RunQueue) : RunQueue :=
  rebuildSet { q with age := q.age + 1, actionSet := obj.actionSet }

/-- The copy constructor. -/
def copy (obj : RunQueue) : RunQueue := assign {} obj

/-- `run`. -/
def run (q : RunQueue) (time : ℤ) (a : Action) : RunQueue :=
  let a := { a with atTime := time }
  match q.find a with
  | some b =>
    { q with
      actionByNode := insertByNode (a.id, q.address b) q.actionByNode
      actionByTime := insertByTime (time, q.address b) q.actionByTime }
  | none =>
    { q with
      actionSet := q.actionSet.orderedInsert (fun a b => a.lt b = true) a
      actionByNode := insertByNode (a.id, q.address a) q.actionByNode
      actionByTime := insertByTime (time, q.address a) q.actionByTime }

/-- `remove`: the first entry for the pointer is erased from each multimap. -/
def remove (q : RunQueue) (a : Action) : RunQueue :=
  match q.find a with
  | none => q
  | some b =>
    { q with
      actionByNode := q.actionByNode.eraseP fun e => e.1 = b.id ∧ e.2 = q.address b
      actionByTime := q.actionByTime.eraseP fun e => e.1 = b.atTime ∧ e.2 = q.address b }

/-- `remove_first`. It has no result where it follows a pointer to nothing. -/
def removeFirst (q : RunQueue) : Option RunQueue :=
  match q.actionByTime with
  | [] => some q
  | e :: _ => (q.deref e.2).map q.remove

/--
The loop of `move_to_queue`, over the entries from the first one: an entry is always the first
one of its pointer when it is removed. The queue it is called on comes first in the result.
-/
def moveLoop (time : ℤ) : List (ℤ × Pointer) → RunQueue → RunQueue →
    Option (RunQueue × RunQueue)
  | [], q, obj => some (q, obj)
  | e :: es, q, obj =>
    if e.1 ≤ time then
      (q.deref e.2).bind fun a => moveLoop time es (q.remove a) (obj.run e.1 a)
    else some (q, obj)

/-- `move_to_queue`, to another object. -/
def moveToQueue (q obj : RunQueue) (time : ℤ) : Option (RunQueue × RunQueue) :=
  moveLoop time q.actionByTime q obj

/-- The action that `begin()` points to. -/
def first (q : RunQueue) : Option Action := q.actionByTime.head?.map fun e => e.2.target

end RunQueue

end CentreonBroker.Notification
