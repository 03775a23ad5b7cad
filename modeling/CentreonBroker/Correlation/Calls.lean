import CentreonBroker.Correlation.Node
import Mathlib.Data.List.Sort

/-!
# The calls on a node

Besides its status, a node follows acknowledgements and downtimes. It keeps the acknowledgement and
the downtimes that run, by their internal ids, and replaces its whole state at each transition. The
stream of a call may be null, as it is while the persistent cache is loaded.
-/

namespace CentreonBroker.Correlation

/-- `neb::acknowledgement`. -/
structure Ack extends Acknowledgement where
  deletionTime : Timestamp
  id : NodeId

/-- `neb::downtime`. -/
structure Downtime where
  actualEndTime : Timestamp
  actualStartTime : Timestamp
  id : NodeId
  internalId : ℕ
  startTime : Timestamp

/-- A map from internal ids to downtimes, in its order. -/
structure Downtimes where
  list : List Downtime
  sorted : list.Pairwise (·.internalId < ·.internalId)

namespace Downtimes

@[ext] theorem ext {a b : Downtimes} (h : a.list = b.list) : a = b := by
  cases a
  cases b
  cases h
  rfl

def empty : Downtimes := ⟨[], .nil⟩

/-- `downtimes[dwn.internal_id] = dwn`. -/
def insert (ds : Downtimes) (d : Downtime) : Downtimes where
  list := ds.list.filter (·.internalId < d.internalId) ++
    d :: ds.list.filter (d.internalId < ·.internalId)
  sorted := by
    refine List.pairwise_append.mpr ⟨ds.sorted.filter _, ?_, ?_⟩
    · refine List.pairwise_cons.mpr ⟨?_, ds.sorted.filter _⟩
      intro d' hd'
      simpa using (List.mem_filter.mp hd').2
    · intro d' hd' d'' hd''
      have hlt : d'.internalId < d.internalId := by simpa using (List.mem_filter.mp hd').2
      rcases List.mem_cons.mp hd'' with rfl | hd''
      · exact hlt
      · have hgt : d.internalId < d''.internalId := by simpa using (List.mem_filter.mp hd'').2
        omega

/-- `downtimes.erase(internal_id)`. -/
def erase (ds : Downtimes) (internalId : ℕ) : Downtimes where
  list := ds.list.filter (·.internalId ≠ internalId)
  sorted := ds.sorted.filter _

@[simp] theorem insert_ne_nil (ds : Downtimes) (d : Downtime) : (ds.insert d).list ≠ [] := by
  simp [insert]

variable {ds : Downtimes} {d : Downtime}

theorem mem_insert {d' : Downtime} (h : d' ∈ (ds.insert d).list) :
    d' = d ∨ d' ∈ ds.list := by
  rcases List.mem_append.mp h with h | h
  · exact .inr (List.mem_filter.mp h).1
  · rcases List.mem_cons.mp h with rfl | h
    · exact .inl rfl
    · exact .inr (List.mem_filter.mp h).1

theorem mem_erase {internalId : ℕ}
    (h : d ∈ (ds.erase internalId).list) : d ∈ ds.list := (List.mem_filter.mp h).1

/-- A downtime that is there is put where it is. -/
theorem insert_of_mem (h : d ∈ ds.list) : ds.insert d = ds := by
  obtain ⟨as, bs, hsplit⟩ := List.append_of_mem h
  have hsorted := ds.sorted
  rw [hsplit] at hsorted
  obtain ⟨-, htail, hcross⟩ := List.pairwise_append.mp hsorted
  have hbefore : ∀ x ∈ as, x.internalId < d.internalId := fun x hx => hcross x hx d List.mem_cons_self
  have hafter : ∀ x ∈ bs, d.internalId < x.internalId := (List.pairwise_cons.mp htail).1
  have hlow : bs.filter (·.internalId < d.internalId) = [] := by
    refine List.filter_eq_nil_iff.mpr ?_
    intro x hx
    have hlt := hafter x hx
    simp
    omega
  have hhigh : as.filter (d.internalId < ·.internalId) = [] := by
    refine List.filter_eq_nil_iff.mpr ?_
    intro x hx
    have hlt := hbefore x hx
    simp
    omega
  have hlow' : as.filter (·.internalId < d.internalId) = as :=
    List.filter_eq_self.mpr (by simpa using hbefore)
  have hhigh' : bs.filter (d.internalId < ·.internalId) = bs :=
    List.filter_eq_self.mpr (by simpa using hafter)
  apply ext
  show ds.list.filter _ ++ d :: ds.list.filter _ = ds.list
  rw [hsplit, List.filter_append, List.filter_append, List.filter_cons_of_neg (by simp),
    List.filter_cons_of_neg (by simp), hlow, hhigh, hlow', hhigh', List.append_nil, List.nil_append]

/-- One that is behind all others is put behind them. -/
theorem insert_of_lt (h : ∀ x ∈ ds.list, x.internalId < d.internalId) :
    (ds.insert d).list = ds.list ++ [d] := by
  show ds.list.filter _ ++ d :: ds.list.filter _ = ds.list ++ [d]
  rw [List.filter_eq_self.mpr (by simpa using h), List.filter_eq_nil_iff.mpr]
  intro x hx
  have := h x hx
  simp
  omega

end Downtimes

/-- A node with all that it keeps, but for its links. -/
structure FullNode where
  state : State
  myIssue : Option Issue := none
  acknowledgement : Option Ack := none
  downtimes : Downtimes := .empty

/-- What a status event looks at. -/
def FullNode.toNode (n : FullNode) : Node where
  state := n.state
  myIssue := n.myIssue
  acknowledgement := n.acknowledgement.map (·.toAcknowledgement)
  downtimes := n.downtimes.list.map (·.startTime)

/-- What reaches the stream, which may be null. -/
def written (stream : Bool) (es : List Event) : List Event := if stream then es else []

namespace FullNode

/-- `_generate_state_event`: what it writes, and the node after it. -/
def generateStateEvent (n : FullNode) (startTime : Timestamp) (newStatus : ℤ) (newInDowntime : Bool)
    (stream : Bool) : List Event × FullNode :=
  let closing := { n.state with endTime := startTime }
  let acknowledgement :=
    match n.acknowledgement with
    | none => none
    | some a => if !a.isSticky && n.state.inDowntime == newInDowntime then none else some a
  let n := { n with acknowledgement := acknowledgement }
  let opening := { n.toNode.openStateEvent startTime with
    currentState := newStatus, inDowntime := newInDowntime }
  (written stream [.state closing, .state opening], { n with state := opening })

/-- A new state removes the acknowledgement, unless it is sticky and the problem goes on. -/
def removeAcknowledgement (n : FullNode) (newState : ℤ) : FullNode :=
  if newState = 0 then { n with acknowledgement := none }
  else
    match n.acknowledgement with
    | none => n
    | some a => if a.isSticky then n else { n with acknowledgement := none }

/-- `manage_ack`. -/
def manageAck (n : FullNode) (ack : Ack) (stream : Bool) : List Event × FullNode :=
  if ack.deletionTime.isNull then
    let myIssue := n.myIssue.map fun i => { i with ackTime := ack.entryTime }
    let n := { n with acknowledgement := some ack, myIssue := myIssue,
                      state := { n.state with ackTime := ack.entryTime } }
    (written stream (myIssue.toList.map .issue ++ [.state n.state]), n)
  else ([], { n with acknowledgement := none })

/-- `manage_downtime`. -/
def manageDowntime (n : FullNode) (dwn : Downtime) (stream : Bool) : List Event × FullNode :=
  if !dwn.actualStartTime.isNull then
    if dwn.actualEndTime.isNull then
      let n := { n with downtimes := n.downtimes.insert dwn }
      if !n.state.inDowntime then
        n.generateStateEvent dwn.actualStartTime n.state.currentState true stream
      else ([], n)
    else
      let n := { n with downtimes := n.downtimes.erase dwn.internalId }
      if n.downtimes.list.isEmpty then
        n.generateStateEvent dwn.actualEndTime n.state.currentState false stream
      else ([], n)
  else ([], n)

end FullNode

/-- Every node by its id, and what was written. -/
structure FullCorrelator where
  nodes : NodeId → FullNode
  stream : List Event

namespace FullCorrelator

/-- What the links look at. -/
def links (nodes : NodeId → FullNode) (x : NodeId) : Node := (nodes x).toNode

/-- `manage_status`, called on the node `x`; `none` where an issue that is null is dereferenced. -/
def manageStatus (t : Topology) (s : FullCorrelator) (x : NodeId) (newState : ℤ)
    (lastStateChange : Timestamp) (stream : Bool) : Option FullCorrelator :=
  let oldState := (s.nodes x).state.currentState
  if oldState = newState then some s
  else
    let n := (s.nodes x).removeAcknowledgement newState
    let states := (n.generateStateEvent lastStateChange newState n.state.inDowntime stream).1
    let n := (n.generateStateEvent lastStateChange newState n.state.inDowntime stream).2
    if newState = 0 then
      match n.myIssue with
      | none => none
      | some i =>
        let i := { i with endTime := lastStateChange }
        let nodes := Function.update s.nodes x { n with myIssue := some i }
        some
          { nodes := Function.update nodes x { n with myIssue := none }
            stream := s.stream ++ states ++ written stream
              (visitLinkedNodes t (links nodes) x lastStateChange true
                ++ visitParentOfChildNodes t (links nodes) x lastStateChange true ++ [.issue i]) }
    else if oldState = 0 then
      let i : Issue :=
        { startTime := lastStateChange
          id := n.state.id
          ackTime := if n.acknowledgement.isSome then lastStateChange else -1 }
      let nodes := Function.update s.nodes x { n with myIssue := some i }
      some
        { nodes := nodes
          stream := s.stream ++ states ++ written stream
            ([.issue i] ++ visitLinkedNodes t (links nodes) x lastStateChange false
              ++ visitParentOfChildNodes t (links nodes) x lastStateChange false) }
    else some ⟨Function.update s.nodes x n, s.stream ++ states⟩

/-- A call that looks at its node only. -/
def onNode (s : FullCorrelator) (x : NodeId) (f : FullNode → List Event × FullNode) : FullCorrelator :=
  ⟨Function.update s.nodes x (f (s.nodes x)).2, s.stream ++ (f (s.nodes x)).1⟩

end FullCorrelator

/-- The calls on nodes. The stream looks for the node with the ids of the event. -/
inductive NodeCall where
  | status (x : NodeId) (newState : ℤ) (lastStateChange : Timestamp)
  | ack (a : Ack)
  | downtime (d : Downtime)

def NodeCall.id : NodeCall → NodeId
  | .status x _ _ => x
  | .ack a => a.id
  | .downtime d => d.id

namespace FullCorrelator

def call (t : Topology) (stream : Bool) (s : FullCorrelator) : NodeCall → Option FullCorrelator
  | .status x newState lastStateChange => s.manageStatus t x newState lastStateChange stream
  | .ack a => some (s.onNode a.id (·.manageAck a stream))
  | .downtime d => some (s.onNode d.id (·.manageDowntime d stream))

/-- The calls one after the other. -/
def run (t : Topology) (stream : Bool) (s : FullCorrelator) (calls : List NodeCall) :
    Option FullCorrelator := calls.foldlM (call t stream) s

/-- Nodes that were just built, at some times. -/
def fresh (startTime : NodeId → Timestamp) : FullCorrelator where
  nodes x := { state := { id := x, currentState := 0, startTime := startTime x } }
  stream := []

end FullCorrelator

theorem unlinked_dual : ∀ x y : NodeId, y ∈ ([] : List NodeId) ↔ x ∈ ([] : List NodeId) := by
  simp

theorem unlinked_irrefl : ∀ x : NodeId, x ∉ ([] : List NodeId) := fun _ => List.not_mem_nil

/-- Nodes without links. -/
def unlinked : Topology where
  parents _ := []
  children _ := []
  dependsOn _ := []
  dependedBy _ := []
  parents_nodup _ := List.nodup_nil
  children_nodup _ := List.nodup_nil
  dependsOn_nodup _ := List.nodup_nil
  dependedBy_nodup _ := List.nodup_nil
  mem_children := unlinked_dual
  mem_dependedBy := unlinked_dual
  parents_irrefl := unlinked_irrefl
  dependsOn_irrefl := unlinked_irrefl

/-! ## Nodes -/

/-- What holds of the node `x`: it has an issue while its state is not 0, and it is in downtime while
a downtime runs. -/
structure FullNode.Sound (x : NodeId) (n : FullNode) : Prop where
  id_eq : n.state.id = x
  issue_id : ∀ i, n.myIssue = some i → i.id = x
  issue_iff : n.myIssue.isSome = true ↔ n.state.currentState ≠ 0
  downtime_iff : n.state.inDowntime = true ↔ n.downtimes.list ≠ []
  endTime_eq : n.state.endTime = -1
  running : ∀ d ∈ n.downtimes.list,
    d.id = x ∧ d.actualStartTime.isNull = false ∧ d.actualEndTime.isNull = true
  created : ∀ a, n.acknowledgement = some a → a.id = x ∧ a.deletionTime.isNull = true

namespace FullNode

section

variable (n : FullNode) (startTime : Timestamp) (newStatus : ℤ) (newInDowntime stream : Bool)

@[simp] theorem generate_id :
    (n.generateStateEvent startTime newStatus newInDowntime stream).2.state.id = n.state.id := rfl

@[simp] theorem generate_currentState :
    (n.generateStateEvent startTime newStatus newInDowntime stream).2.state.currentState = newStatus :=
  rfl

@[simp] theorem generate_inDowntime :
    (n.generateStateEvent startTime newStatus newInDowntime stream).2.state.inDowntime =
      newInDowntime := rfl

@[simp] theorem generate_startTime :
    (n.generateStateEvent startTime newStatus newInDowntime stream).2.state.startTime = startTime := rfl

@[simp] theorem generate_myIssue :
    (n.generateStateEvent startTime newStatus newInDowntime stream).2.myIssue = n.myIssue := rfl

@[simp] theorem generate_downtimes :
    (n.generateStateEvent startTime newStatus newInDowntime stream).2.downtimes = n.downtimes := rfl

theorem generate_events :
    (n.generateStateEvent startTime newStatus newInDowntime stream).1 =
      written stream [.state { n.state with endTime := startTime },
        .state (n.generateStateEvent startTime newStatus newInDowntime stream).2.state] := rfl

/-- The acknowledgement goes when it is not sticky and the flag does not change. -/
theorem generate_acknowledgement :
    (n.generateStateEvent startTime newStatus newInDowntime stream).2.acknowledgement =
      n.acknowledgement.filter fun a => a.isSticky || n.state.inDowntime != newInDowntime := by
  cases h : n.acknowledgement with
  | none => simp [generateStateEvent, h]
  | some a =>
    cases hsticky : a.isSticky <;> cases hflag : n.state.inDowntime == newInDowntime <;>
      simp [generateStateEvent, h, hsticky, hflag, Option.filter, bne]

theorem created_generate {x : NodeId}
    (h : ∀ a, n.acknowledgement = some a → a.id = x ∧ a.deletionTime.isNull = true) :
    ∀ a, (n.generateStateEvent startTime newStatus newInDowntime stream).2.acknowledgement = some a →
      a.id = x ∧ a.deletionTime.isNull = true := by
  intro a ha
  rw [generate_acknowledgement] at ha
  exact h a (Option.filter_eq_some_iff.mp ha).1

@[simp] theorem removeAcknowledgement_state (newState : ℤ) :
    (n.removeAcknowledgement newState).state = n.state := by
  unfold removeAcknowledgement
  repeat' split
  all_goals rfl

@[simp] theorem removeAcknowledgement_myIssue (newState : ℤ) :
    (n.removeAcknowledgement newState).myIssue = n.myIssue := by
  unfold removeAcknowledgement
  repeat' split
  all_goals rfl

@[simp] theorem removeAcknowledgement_downtimes (newState : ℤ) :
    (n.removeAcknowledgement newState).downtimes = n.downtimes := by
  unfold removeAcknowledgement
  repeat' split
  all_goals rfl

/-- It stays when it is sticky and the problem goes on. -/
theorem removeAcknowledgement_eq (newState : ℤ) :
    (n.removeAcknowledgement newState).acknowledgement =
      n.acknowledgement.filter fun a => newState ≠ 0 && a.isSticky := by
  unfold removeAcknowledgement
  by_cases hstate : newState = 0
  · cases h : n.acknowledgement <;> simp [hstate, Option.filter]
  · cases h : n.acknowledgement with
    | none => simp [hstate, h]
    | some a => cases hsticky : a.isSticky <;> simp [hstate, h, hsticky, Option.filter]

end

/-! ### Soundness -/

variable {n : FullNode} {x : NodeId}

theorem Sound.manageAck (h : n.Sound x) {a : Ack} (ha : a.id = x) (stream : Bool) :
    (n.manageAck a stream).2.Sound x := by
  obtain ⟨hid, hissueId, hissue, hdowntime, hend, hrunning, hcreated⟩ := h
  unfold FullNode.manageAck
  split
  · rename_i hcreation
    refine ⟨hid, ?_, ?_, hdowntime, hend, hrunning, ?_⟩
    · intro i hi
      obtain ⟨j, hj, rfl⟩ := Option.map_eq_some_iff.mp hi
      exact hissueId j hj
    · simpa using hissue
    · intro a' ha'
      cases ha'
      exact ⟨ha, hcreation⟩
  · refine ⟨hid, hissueId, hissue, hdowntime, hend, hrunning, ?_⟩
    intro a' ha'
    cases ha'

variable {d : Downtime}

theorem manageDowntime_ignored (h : d.actualStartTime.isNull = true) (stream : Bool) :
    n.manageDowntime d stream = ([], n) := by
  rw [manageDowntime, h]
  rfl

theorem manageDowntime_start (hstart : d.actualStartTime.isNull = false)
    (hend : d.actualEndTime.isNull = true) (stream : Bool) :
    n.manageDowntime d stream =
      if n.state.inDowntime then ([], { n with downtimes := n.downtimes.insert d })
      else ({ n with downtimes := n.downtimes.insert d } : FullNode).generateStateEvent
        d.actualStartTime n.state.currentState true stream := by
  rw [manageDowntime, hstart, hend]
  cases h : n.state.inDowntime <;> simp [h]

theorem manageDowntime_end (hstart : d.actualStartTime.isNull = false)
    (hend : d.actualEndTime.isNull = false) (stream : Bool) :
    n.manageDowntime d stream =
      if (n.downtimes.erase d.internalId).list.isEmpty then
        ({ n with downtimes := n.downtimes.erase d.internalId } : FullNode).generateStateEvent
          d.actualEndTime n.state.currentState false stream
      else ([], { n with downtimes := n.downtimes.erase d.internalId }) := by
  rw [manageDowntime, hstart, hend]
  rfl

/-- A start and an end of a downtime keep the flag and the map together. -/
theorem Sound.manageDowntime (h : n.Sound x) (hd : d.id = x) (stream : Bool) :
    (n.manageDowntime d stream).2.Sound x := by
  cases hstart : d.actualStartTime.isNull with
  | true =>
    rw [manageDowntime_ignored hstart]
    exact h
  | false =>
    cases hend : d.actualEndTime.isNull with
    | true =>
      rw [manageDowntime_start hstart hend]
      have hne := Downtimes.insert_ne_nil n.downtimes d
      have hrunning : ∀ d' ∈ (n.downtimes.insert d).list,
          d'.id = x ∧ d'.actualStartTime.isNull = false ∧ d'.actualEndTime.isNull = true := by
        intro d' hd'
        rcases Downtimes.mem_insert hd' with rfl | hmem
        · exact ⟨hd, hstart, hend⟩
        · exact h.running d' hmem
      split
      · rename_i hflag
        exact { h with downtime_iff := iff_of_true hflag hne, running := hrunning }
      · exact
          { id_eq := h.id_eq
            issue_id := h.issue_id
            issue_iff := h.issue_iff
            downtime_iff := iff_of_true rfl hne
            endTime_eq := rfl
            running := hrunning
            created := created_generate _ _ _ _ _ h.created }
    | false =>
      rw [manageDowntime_end hstart hend]
      have hrunning : ∀ d' ∈ (n.downtimes.erase d.internalId).list,
          d'.id = x ∧ d'.actualStartTime.isNull = false ∧ d'.actualEndTime.isNull = true :=
        fun d' hd' => h.running d' (Downtimes.mem_erase hd')
      split
      · rename_i hempty
        exact
          { id_eq := h.id_eq
            issue_id := h.issue_id
            issue_iff := h.issue_iff
            downtime_iff := iff_of_false Bool.false_ne_true
              (not_not.mpr (List.isEmpty_iff.mp hempty))
            endTime_eq := rfl
            running := hrunning
            created := created_generate _ _ _ _ _ h.created }
      · rename_i hleft
        have hne : (n.downtimes.erase d.internalId).list ≠ [] :=
          fun hnil => hleft (List.isEmpty_iff.mpr hnil)
        -- a downtime is left, so one was running before
        have hsome : n.downtimes.list ≠ [] := by
          intro hnil
          obtain ⟨d', hd'⟩ := List.exists_mem_of_ne_nil _ hne
          have hmem := Downtimes.mem_erase hd'
          rw [hnil] at hmem
          cases hmem
        exact { h with
          downtime_iff := iff_of_true (h.downtime_iff.mpr hsome) hne
          running := hrunning }

/-- The node of a status event, when its state has changed and its issue has not yet. -/
theorem Sound.changed (h : n.Sound x) (newState : ℤ) (time : Timestamp) (stream : Bool) {m : FullNode}
    (hm : m = ((n.removeAcknowledgement newState).generateStateEvent time newState n.state.inDowntime
      stream).2) (myIssue : Option Issue) (hissueId : ∀ i, myIssue = some i → i.id = x)
    (hissue : myIssue.isSome = true ↔ newState ≠ 0) :
    ({ m with myIssue := myIssue } : FullNode).Sound x where
  id_eq := by
    rw [hm, generate_id, removeAcknowledgement_state]
    exact h.id_eq
  issue_id := hissueId
  issue_iff := by
    rw [hm]
    exact hissue
  downtime_iff := by
    rw [hm, generate_inDowntime, generate_downtimes, removeAcknowledgement_downtimes]
    exact h.downtime_iff
  endTime_eq := by
    rw [hm]
    rfl
  running := by
    rw [hm, generate_downtimes, removeAcknowledgement_downtimes]
    exact h.running
  created := by
    rw [hm]
    refine created_generate _ time newState n.state.inDowntime stream ?_
    intro a ha
    rw [removeAcknowledgement_eq] at ha
    exact h.created a (Option.filter_eq_some_iff.mp ha).1

end FullNode

/-! ## The nodes without their downtimes -/

namespace FullNode

theorem toNode_removeAcknowledgement (n : FullNode) (newState : ℤ) :
    (n.removeAcknowledgement newState).toNode = n.toNode.removeAcknowledgement newState := by
  unfold removeAcknowledgement Node.removeAcknowledgement
  split
  · rfl
  · cases h : n.acknowledgement with
    | none => simp [toNode, h]
    | some a => cases hsticky : a.isSticky <;> simp [toNode, h, hsticky]

theorem toNode_generate (n : FullNode) (startTime : Timestamp) (newStatus : ℤ) (newInDowntime : Bool) :
    ((n.generateStateEvent startTime newStatus newInDowntime true).1,
        (n.generateStateEvent startTime newStatus newInDowntime true).2.toNode) =
      n.toNode.generateStateEvent startTime newStatus newInDowntime := by
  cases h : n.acknowledgement with
  | none => simp [generateStateEvent, Node.generateStateEvent, toNode, h, written]
  | some a =>
    cases hgoes : !a.isSticky && n.state.inDowntime == newInDowntime <;>
      simp [generateStateEvent, Node.generateStateEvent, toNode, h, hgoes, written]

end FullNode

namespace FullCorrelator

theorem links_update (nodes : NodeId → FullNode) (x : NodeId) (n : FullNode) :
    links (Function.update nodes x n) = Function.update (links nodes) x n.toNode := by
  funext y
  by_cases hy : y = x
  · subst hy
    simp [links]
  · simp [links, hy]

def toCorrelator (s : FullCorrelator) : Correlator := ⟨links s.nodes, s.stream⟩

/-- **A status event does to the nodes what it does to them without their downtimes.** -/
theorem toCorrelator_manageStatus {t : Topology} {s : FullCorrelator} {x : NodeId}
    (hissue : (s.nodes x).myIssue.isSome = true ↔ (s.nodes x).state.currentState ≠ 0) (newState : ℤ)
    (lastStateChange : Timestamp) :
    (s.manageStatus t x newState lastStateChange true).map toCorrelator =
      some (s.toCorrelator.manageStatus t x newState lastStateChange) := by
  have hnode : s.toCorrelator.nodes x = (s.nodes x).toNode := rfl
  have hold : (s.toCorrelator.nodes x).state.currentState = (s.nodes x).state.currentState := rfl
  unfold FullCorrelator.manageStatus Correlator.manageStatus
  dsimp only
  rw [hold]
  by_cases hsame : (s.nodes x).state.currentState = newState
  · rw [if_pos hsame, if_pos hsame]
    rfl
  rw [if_neg hsame, if_neg hsame, hnode, ← FullNode.toNode_removeAcknowledgement]
  have hgenerate := FullNode.toNode_generate ((s.nodes x).removeAcknowledgement newState)
    lastStateChange newState ((s.nodes x).removeAcknowledgement newState).state.inDowntime
  have hmyIssue := FullNode.generate_myIssue ((s.nodes x).removeAcknowledgement newState)
    lastStateChange newState ((s.nodes x).removeAcknowledgement newState).state.inDowntime true
  rw [FullNode.removeAcknowledgement_myIssue] at hmyIssue
  generalize ((s.nodes x).removeAcknowledgement newState).generateStateEvent lastStateChange newState
    ((s.nodes x).removeAcknowledgement newState).state.inDowntime true = p at hgenerate hmyIssue
  obtain ⟨states, m⟩ := p
  have hflag : ((s.nodes x).removeAcknowledgement newState).toNode.state.inDowntime =
      ((s.nodes x).removeAcknowledgement newState).state.inDowntime := rfl
  rw [hflag, ← hgenerate]
  dsimp only at hmyIssue ⊢
  by_cases hnew : newState = 0
  · subst hnew
    obtain ⟨i, hi⟩ := Option.isSome_iff_exists.mp (hissue.mpr hsame)
    have hmi : m.myIssue = some i := hmyIssue.trans hi
    have hmi' : m.toNode.myIssue = some i := hmi
    rw [if_pos rfl, if_pos rfl, hmi, hmi', Option.map_some]
    simp only [toCorrelator, links_update, written, if_true, List.append_assoc]
    rfl
  · rw [if_neg hnew, if_neg hnew]
    by_cases hzero : (s.nodes x).state.currentState = 0
    · rw [if_pos hzero, if_pos hzero, Option.map_some]
      have hack : m.toNode.acknowledgement.isSome = m.acknowledgement.isSome := by
        simp [FullNode.toNode]
      rw [hack]
      simp only [toCorrelator, links_update, written, if_true, List.append_assoc]
      rfl
    · rw [if_neg hzero, if_neg hzero, Option.map_some]
      simp only [toCorrelator, links_update]

end FullCorrelator

end CentreonBroker.Correlation
