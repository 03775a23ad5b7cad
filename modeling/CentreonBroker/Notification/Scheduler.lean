import CentreonBroker.Notification.Pending
import Mathlib.Algebra.Group.Nat.Defs

/-!
# The stream of the notifications and its scheduler

The stream follows the hard states of the nodes. When one changes, it removes the actions of the
node from the queue and adds a new one. The thread of the scheduler takes all that is due out of the
queue, and works on it without the lock: each action is processed, and what it spawns is added to
the queue. Each of these steps may come between any two of the others.

The time periods, and the flags that the cache has of a node, are read; the text of a notification
is left out.
-/

namespace CentreonBroker.Notification

/-! ## The objects -/

/-- `notification_rule`, a row of its table. One rule may have several. -/
structure NotificationRule where
  id : ℕ
  methodId : ℕ
  timeperiodId : ℕ
  contactId : ℕ
  nodeId : NodeId

/-- `notification_method`. `_end` is `stop`. -/
structure NotificationMethod where
  commandId : ℕ
  interval : ℕ
  status : List Char
  types : List Char
  start : ℕ
  stop : ℕ

/-- What is asked of a `timeperiod`. -/
structure Timeperiod where
  isValid : ℤ → Bool
  getNextValid : ℤ → ℤ

/-- The objects that the `state` loads, in the order of the database. -/
structure Objects where
  rules : List NotificationRule
  methods : ℕ → Option NotificationMethod
  timeperiods : ℕ → Option Timeperiod
  contacts : ℕ → Bool
  commands : ℕ → Bool

/-- `node`. -/
structure Node where
  hardState : ℤ
  softState : ℤ
  parents : List NodeId

/-- `node_state::ok`. -/
def ok : ℤ := 0

namespace Objects

/-- `get_notification_rules_by_node`: the last one that was inserted comes first. -/
def rulesByNode (id : NodeId) (o : Objects) : List NotificationRule :=
  (o.rules.filter fun r => r.nodeId = id).reverse

/-- `get_notification_rule_by_id`: the last row that has the id. -/
def ruleById (id : ℕ) (o : Objects) : Option NotificationRule :=
  o.rules.reverse.find? fun r => r.id = id

end Objects

namespace NotificationMethod

/-- `should_be_notified_for`, of a state. -/
def shouldBeNotifiedForState (state : ℤ) (isService : Bool) (m : NotificationMethod) : Bool :=
  if state = ok then 'o' ∈ m.status
  else if isService then
    if state = 1 then 'w' ∈ m.status
    else if state = 2 then 'c' ∈ m.status
    else if state = 3 then 'u' ∈ m.status
    else false
  else if state = 1 then 'd' ∈ m.status
  else if state = 2 then 'n' ∈ m.status
  else false

/-- `should_be_notified_for`, of a type of actions. -/
def shouldBeNotifiedForType (m : NotificationMethod) : ActionType → Bool
  | .notificationAttempt => 'n' ∈ m.types
  | .notificationUp => 'r' ∈ m.types
  | .notificationAck => 'a' ∈ m.types
  | .notificationDowntime => 'd' ∈ m.types
  | .unknown | .notificationProcessing => false

/-- `should_be_notified_when_correlated`. -/
def shouldBeNotifiedWhenCorrelated (m : NotificationMethod) : Bool := 'c' ∈ m.types

end NotificationMethod

/-! ## An action -/

/-- What is read while an action is processed: the clock, for the rule of some id, and the flags
that the cache has of the node. -/
structure Reading where
  clock : ℕ → ℤ
  inDowntime : Bool
  acknowledged : Bool

/-- What comes of an action: actions for later, and the state that the node was in if a notification
was sent. -/
structure Outcome where
  spawned : List (ℤ × Action)
  sent : Option ℤ

namespace Action

/-- An action, whenever it is to run. -/
def untimed (a : Action) : Action := { a with atTime := 0 }

/-- `node_id::is_service`. -/
def isService (a : Action) : Bool := a.id.serviceId ≠ 0

/-- `_spawn_notification_attempts`. -/
def spawnNotificationAttempts (o : Objects) (r : Reading) (a : Action) : List (ℤ × Action) :=
  (o.rulesByNode a.id).map fun rule =>
    let time :=
      match o.timeperiods rule.timeperiodId with
      | some tp => tp.getNextValid (r.clock rule.id)
      | none => r.clock rule.id
    (time,
      { id := a.id
        act := a.forwardedAction
        notificationRuleId := rule.id
        notificationNumber := 1
        firstTimeOfNotification := time })

/-- The checks of `_process_notification`, but for the time, and what they find: the state of the
node, the rule and its method. -/
def viable (o : Objects) (nodes : NodeId → Option Node) (a : Action) :
    Option (ℤ × NotificationRule × NotificationMethod) :=
  (nodes a.id).bind fun n =>
    (o.ruleById a.notificationRuleId).bind fun rule =>
      (o.methods rule.methodId).bind fun method =>
        if !o.contacts rule.contactId then none
        else if !o.commands method.commandId then none
        else if !n.parents.isEmpty && !method.shouldBeNotifiedWhenCorrelated then none
        else if !method.shouldBeNotifiedForState n.hardState a.isService then none
        else if !method.shouldBeNotifiedForType a.act then none
        else some (n.hardState, rule, method)

/-- `next`, of `_process_notification`. The number is a `uint32_t`. -/
def next (a : Action) : Action :=
  { a with notificationNumber := (a.notificationNumber + 1) % 2 ^ 32 }

/-- `should_send_the_notification`. -/
def shouldSend (method : NotificationMethod) (r : Reading) (now : ℤ) (a : Action) : Bool :=
  !(a.act = .notificationAttempt && r.inDowntime) &&
    !(a.act = .notificationAttempt && r.acknowledged) &&
      !(now < a.firstTimeOfNotification + method.start ||
        (a.firstTimeOfNotification + method.stop ≤ now && method.stop ≠ 0))

/-- `_process_notification`. -/
def processNotification (o : Objects) (nodes : NodeId → Option Node) (r : Reading) (a : Action) :
    Outcome :=
  match a.viable o nodes with
  | none => ⟨[], none⟩
  | some (hardState, rule, method) =>
    let now := r.clock a.notificationRuleId
    match (o.timeperiods rule.timeperiodId).filter fun tp => !tp.isValid now with
    | some tp => ⟨[(tp.getNextValid now, a)], none⟩
    | none =>
      { sent := if a.shouldSend method r now then some hardState else none
        spawned := if a.act = .notificationAttempt then [(now + method.interval, a.next)] else [] }

/-- `process_action`. -/
def processAction (o : Objects) (nodes : NodeId → Option Node) (r : Reading) (a : Action) :
    Outcome :=
  if a.act = .unknown ∨ a.id = ⟨0, 0⟩ then ⟨[], none⟩
  else if a.act = .notificationProcessing then ⟨a.spawnNotificationAttempts o r, none⟩
  else a.processNotification o nodes r

end Action

/-! ## The threads -/

/-- `host_status` and `service_status`, as far as the stream reads them. -/
structure StatusEvent where
  hostId : ℕ
  /-- 0 for a host. -/
  serviceId : ℕ
  lastHardState : ℤ
  currentState : ℤ

def StatusEvent.nodeId (e : StatusEvent) : NodeId := ⟨e.hostId, e.serviceId⟩

/-- The stream and its scheduler, with what the scheduler has in hands: the actions that it took out
of the queue, and those that the last one of them spawned. -/
structure Engine where
  nodes : NodeId → Option Node
  queue : RunQueue
  batch : List Action
  spawned : List (ℤ × Action)
  /-- The actions that a notification was sent for, each with the state of its node. -/
  sent : List (Action × ℤ)

/-- The steps. The times and the readings are those of the step. -/
inductive EngineOp where
  | status (e : StatusEvent) (now : ℤ)
  | take (now : ℤ)
  | process (r : Reading)
  | schedule

namespace Engine

/-- Nothing is to be done yet. -/
def start (nodes : NodeId → Option Node) : Engine := ⟨nodes, {}, [], [], []⟩

/-- The action that comes of a change of the hard state. -/
def changed (id : NodeId) (oldHardState : ℤ) : Action :=
  { act := .notificationProcessing
    forwardedAction := if oldHardState = ok then .notificationAttempt else .notificationUp
    id := id }

/-- `remove_actions_of_node`, and `add_action_to_queue` for a new one. -/
def replaceActions (time : ℤ) (a : Action) (q : RunQueue) : RunQueue :=
  (q.removeAll (q.getActionsOfNode a.id)).run time a

/-- `_process_host_status_event` and `_process_service_status_event`. They throw for a node that is
not known, and then nothing has changed. -/
def processStatusEvent (e : StatusEvent) (now : ℤ) (w : Engine) : Engine :=
  match w.nodes e.nodeId with
  | none => w
  | some n =>
    let w := { w with
      nodes := Function.update w.nodes e.nodeId
        (some { n with hardState := e.lastHardState, softState := e.currentState }) }
    -- both branches of the source ask for a change and for the old state only
    if n.hardState ≠ e.lastHardState then
      { w with queue := replaceActions (now + 1) (changed e.nodeId n.hardState) w.queue }
    else w

/-- The start of `_process_actions`: what is due is moved to the local queue. -/
def takeBatch (now : ℤ) (w : Engine) : Engine :=
  match w.queue.moveToQueue {} now with
  | none => w
  | some (queue, localQueue) => { w with queue := queue, batch := localQueue.pending }

/-- The loop of `_process_actions`, for one action. -/
def processOne (o : Objects) (r : Reading) (w : Engine) : Engine :=
  match w.batch with
  | [] => w
  | a :: batch =>
    { w with
      batch := batch
      spawned := (a.processAction o w.nodes r).spawned
      sent := w.sent ++ ((a.processAction o w.nodes r).sent.map (Prod.mk a)).toList }

/-- `_schedule_actions`, for one action. -/
def scheduleOne (w : Engine) : Engine :=
  match w.spawned with
  | [] => w
  | (time, a) :: spawned => { w with queue := w.queue.run time a, spawned := spawned }

/-- A step. The scheduler takes what is due when it has nothing left, and goes on with the next
action when it has added what the last one spawned. -/
def step (o : Objects) (w : Engine) : EngineOp → Engine
  | .status e now => w.processStatusEvent e now
  | .take now => if w.batch = [] ∧ w.spawned = [] then w.takeBatch now else w
  | .process r => if w.spawned = [] then w.processOne o r else w
  | .schedule => w.scheduleOne

/-! ## What is pending -/

/-- The actions in the hands of the scheduler. -/
def inHand (w : Engine) : List Action := w.batch ++ w.spawned.map Prod.snd

/-- The actions that are pending, in the queue or in the hands of the scheduler, without the times
that they are to run at. -/
def tasks (w : Engine) : List Action := (w.queue.pending ++ w.inHand).map Action.untimed

/-- The hard state of a node, if it is known. -/
def hardState (w : Engine) (id : NodeId) : Option ℤ := (w.nodes id).map Node.hardState

end Engine

end CentreonBroker.Notification
