import Mathlib.Data.Int.Notation
import Mathlib.Data.List.Nodup
import Mathlib.Logic.Function.Basic

/-!
# Correlation nodes

A node of the correlation graph is a host or a service. It has an issue while its hard state is
not 0. `manage_status` opens and closes the issue of a node, and with it the `issue_parent`
events of every link whose condition has changed: a dependency needs the issues of both its
ends, a parent link those of the child and of all the parents of the child.

The stream is not null here, and holds what was written to it in order.
-/

namespace CentreonBroker.Correlation

/-- A `timestamp`, by its seconds. -/
abbrev Timestamp := ℤ

/-- `timestamp::is_null`. -/
def Timestamp.isNull (t : Timestamp) : Bool := t == -1 || t == 0

/-- `node::get_id`: a host id, and a service id that is 0 for the host itself. -/
structure NodeId where
  hostId : ℕ
  serviceId : ℕ
deriving DecidableEq

/-- `correlation::state`. -/
structure State where
  ackTime : Timestamp := -1
  currentState : ℤ := 3
  endTime : Timestamp := -1
  id : NodeId := ⟨0, 0⟩
  inDowntime : Bool := false
  startTime : Timestamp := 0

/-- `correlation::issue`. -/
structure Issue where
  ackTime : Timestamp := -1
  endTime : Timestamp := -1
  id : NodeId := ⟨0, 0⟩
  startTime : Timestamp := 0

/-- `correlation::issue_parent`. -/
structure IssueParent where
  child : NodeId := ⟨0, 0⟩
  childStartTime : Timestamp := 0
  endTime : Timestamp := -1
  parent : NodeId := ⟨0, 0⟩
  parentStartTime : Timestamp := 0
  startTime : Timestamp := 0

/-- What `manage_status` reads of a `neb::acknowledgement`. -/
structure Acknowledgement where
  isSticky : Bool
  entryTime : Timestamp

/-- A node, but for its links. `downtimes` holds the start time of each downtime. -/
structure Node where
  state : State
  myIssue : Option Issue := none
  acknowledgement : Option Acknowledgement := none
  downtimes : List Timestamp := []

/--
The links of every node, which do not change here. The sets are listed in the order in which
they are visited; `add_parent` and `add_dependency` keep the two sides of a link together.
-/
structure Topology where
  parents : NodeId → List NodeId
  children : NodeId → List NodeId
  dependsOn : NodeId → List NodeId
  dependedBy : NodeId → List NodeId
  parents_nodup : ∀ x, (parents x).Nodup
  children_nodup : ∀ x, (children x).Nodup
  dependsOn_nodup : ∀ x, (dependsOn x).Nodup
  dependedBy_nodup : ∀ x, (dependedBy x).Nodup
  mem_children : ∀ x y, y ∈ children x ↔ x ∈ parents y
  mem_dependedBy : ∀ x y, y ∈ dependedBy x ↔ x ∈ dependsOn y
  parents_irrefl : ∀ x, x ∉ parents x
  dependsOn_irrefl : ∀ x, x ∉ dependsOn x

/-- The two kinds of links. -/
inductive LinkKind where
  | parenting
  | dependency
deriving DecidableEq

/--
What is written to the stream. An `issue_parent` does not say for which kind of link it is; the
kind stands beside it here.
-/
inductive Event where
  | state (s : State)
  | issue (i : Issue)
  | issueParent (kind : LinkKind) (ip : IssueParent)

/-- `node::link_type`: what the updated node is to the notified one. -/
inductive LinkType where
  | parent
  | children
  | dependedBy
  | dependsOn

/-- Every node by its id, and the stream. -/
structure Correlator where
  nodes : NodeId → Node
  stream : List Event

/--
`all_parents_with_issues_and_get_start_time`, with the parents that are left: nothing when one
has no issue.
-/
def allParentsWithIssues (nodes : NodeId → Node) : List NodeId → Timestamp → Option Timestamp
  | [], start => some start
  | p :: ps, start =>
    match (nodes p).myIssue with
    | none => none
    | some i =>
      allParentsWithIssues nodes ps
        (if start.isNull || start < i.startTime then i.startTime else start)

/-- `linked_node_updated`, called on `this`. -/
def linkedNodeUpdated (t : Topology) (nodes : NodeId → Node) (this n : NodeId)
    (startTime : Timestamp) (closed : Bool) (type : LinkType) : List Event :=
  let endTime := if closed then startTime else -1
  let event (kind : LinkKind) (child parent : NodeId) (c p : Issue) (start : Timestamp) :=
    [Event.issueParent kind
      { child := (nodes child).state.id
        childStartTime := c.startTime
        parent := (nodes parent).state.id
        parentStartTime := p.startTime
        startTime := start
        endTime := endTime }]
  match (nodes this).myIssue, (nodes n).myIssue with
  | some mine, some its =>
    let later := if mine.startTime > its.startTime then mine.startTime else its.startTime
    match type with
    | .dependedBy => event .dependency n this its mine later
    | .dependsOn => event .dependency this n mine its later
    | .parent =>
      match allParentsWithIssues nodes (t.parents this) mine.startTime with
      | none => []
      | some start => event .parenting this n mine its start
    | .children =>
      match allParentsWithIssues nodes (t.parents n) its.startTime with
      | none => []
      | some start => event .parenting n this its mine start
  | _, _ => []

/-- `_visit_linked_nodes`. -/
def visitLinkedNodes (t : Topology) (nodes : NodeId → Node) (x : NodeId)
    (lastStateChange : Timestamp) (closed : Bool) : List Event :=
  (t.parents x).flatMap (linkedNodeUpdated t nodes · x lastStateChange closed .children)
    ++ (t.children x).flatMap (linkedNodeUpdated t nodes · x lastStateChange closed .parent)
    ++ (t.dependsOn x).flatMap (linkedNodeUpdated t nodes · x lastStateChange closed .dependedBy)
    ++ (t.dependedBy x).flatMap (linkedNodeUpdated t nodes · x lastStateChange closed .dependsOn)

/-- `_visit_parent_of_child_nodes`. -/
def visitParentOfChildNodes (t : Topology) (nodes : NodeId → Node) (x : NodeId)
    (lastStateChange : Timestamp) (closed : Bool) : List Event :=
  (t.children x).flatMap fun c => (t.parents c).flatMap fun p =>
    if p ≠ x then linkedNodeUpdated t nodes p c lastStateChange closed .children else []

/-- The start of the earliest downtime, as `_open_state_event` looks for it. -/
def earliestDowntime (downtimes : List Timestamp) : Timestamp :=
  downtimes.foldl (fun earliest d => if earliest.isNull || earliest > d then d else earliest) (-1)

/-- `_open_state_event`. -/
def Node.openStateEvent (n : Node) (startTime : Timestamp) : State :=
  let earliest := earliestDowntime n.downtimes
  { startTime := startTime
    id := n.state.id
    currentState := n.state.currentState
    inDowntime := if earliest.isNull then false else earliest ≤ startTime
    ackTime :=
      match n.acknowledgement with
      | none => -1
      | some a => if a.entryTime > startTime then a.entryTime else startTime }

/-- `_generate_state_event`: the two states it writes, and the node after it. -/
def Node.generateStateEvent (n : Node) (startTime : Timestamp) (newStatus : ℤ)
    (newInDowntime : Bool) : List Event × Node :=
  let closing := { n.state with endTime := startTime }
  let acknowledgement :=
    match n.acknowledgement with
    | none => none
    | some a => if !a.isSticky && n.state.inDowntime == newInDowntime then none else some a
  let n := { n with acknowledgement := acknowledgement }
  let opening := { n.openStateEvent startTime with
    currentState := newStatus, inDowntime := newInDowntime }
  ([.state closing, .state opening], { n with state := opening })

/-- A new state removes the acknowledgement, unless it is sticky and the problem goes on. -/
def Node.removeAcknowledgement (n : Node) (newState : ℤ) : Node :=
  if newState = 0 then { n with acknowledgement := none }
  else
    match n.acknowledgement with
    | none => n
    | some a => if a.isSticky then n else { n with acknowledgement := none }

/-- `manage_status`, called on the node `x`. -/
def Correlator.manageStatus (t : Topology) (s : Correlator) (x : NodeId) (newState : ℤ)
    (lastStateChange : Timestamp) : Correlator :=
  let oldState := (s.nodes x).state.currentState
  if oldState = newState then s
  else
    let n := (s.nodes x).removeAcknowledgement newState
    let states := (n.generateStateEvent lastStateChange newState n.state.inDowntime).1
    let n := (n.generateStateEvent lastStateChange newState n.state.inDowntime).2
    if newState = 0 then
      match n.myIssue with
      -- a node whose state is not 0 has an issue, see `Sound.issue_iff`
      | none => ⟨Function.update s.nodes x n, s.stream ++ states⟩
      | some i =>
        let i := { i with endTime := lastStateChange }
        let nodes := Function.update s.nodes x { n with myIssue := some i }
        ⟨Function.update nodes x { n with myIssue := none },
          s.stream ++ states
            ++ visitLinkedNodes t nodes x lastStateChange true
            ++ visitParentOfChildNodes t nodes x lastStateChange true
            ++ [.issue i]⟩
    else if oldState = 0 then
      let i : Issue :=
        { startTime := lastStateChange
          id := n.state.id
          ackTime := if n.acknowledgement.isSome then lastStateChange else -1 }
      let nodes := Function.update s.nodes x { n with myIssue := some i }
      ⟨nodes,
        s.stream ++ states ++ [.issue i]
          ++ visitLinkedNodes t nodes x lastStateChange false
          ++ visitParentOfChildNodes t nodes x lastStateChange false⟩
    else ⟨Function.update s.nodes x n, s.stream ++ states⟩

/-- A call of `manage_status`. -/
structure Call where
  node : NodeId
  newState : ℤ
  lastStateChange : Timestamp

/-- The calls one after the other. -/
def Correlator.run (t : Topology) (s : Correlator) (calls : List Call) : Correlator :=
  calls.foldl (fun s c => s.manageStatus t c.node c.newState c.lastStateChange) s

end CentreonBroker.Correlation
