import CentreonBroker.Correlation.Node
import Mathlib.Data.List.Basic
import Mathlib.Tactic.Common

/-!
# Issue parenting events

The `issue_parent` events of a link open and close it in turn. Whether a link has to be open
depends only on since when each node has an issue, and only on a few nodes: when the issue of a
node opens or closes, the links to look at are those which need this node, and the visits of
`manage_status` meet each of them once.
-/

namespace CentreonBroker.Correlation

/-! ## Links -/

/-- A link, from its child to one of its parents or to a node it depends on. -/
structure Link where
  kind : LinkKind
  child : NodeId
  parent : NodeId
deriving DecidableEq

def Link.Touches (l : Link) (x : NodeId) : Prop := x = l.child ∨ x = l.parent

def Topology.IsLink (t : Topology) (l : Link) : Prop :=
  match l.kind with
  | .parenting => l.parent ∈ t.parents l.child
  | .dependency => l.parent ∈ t.dependsOn l.child

/-- The nodes which must have an issue for the link to be open. -/
def Link.needs (t : Topology) (l : Link) : List NodeId :=
  match l.kind with
  | .parenting => l.child :: t.parents l.child
  | .dependency => [l.child, l.parent]

variable {l : Link}

theorem Topology.IsLink.parent_mem {t : Topology} (h : t.IsLink l) :
    l.parent ∈ l.needs t := by
  unfold IsLink at h
  unfold Link.needs
  cases hk : l.kind <;> simp_all

theorem Link.child_mem (t : Topology) (l : Link) : l.child ∈ l.needs t := by
  unfold Link.needs
  cases l.kind <;> simp

theorem Topology.IsLink.mem_of_touches {t : Topology} {x : NodeId} (h : t.IsLink l)
    (hx : l.Touches x) : x ∈ l.needs t := by
  rcases hx with rfl | rfl
  · exact l.child_mem t
  · exact h.parent_mem

/-! ## The events of a link -/

/-- An event with no end time says that the link opens. -/
def IssueParent.opens (ip : IssueParent) : Bool := ip.endTime.isNull

/-- What the closing event has in common with the opening one. -/
def IssueParent.key (ip : IssueParent) : NodeId × NodeId × Timestamp × Timestamp × Timestamp :=
  (ip.child, ip.parent, ip.childStartTime, ip.parentStartTime, ip.startTime)

/--
The open event of a link, after one more event. Only an opening event may follow when there is
none, and only its own closing event when there is one.
-/
def follow : Option IssueParent → IssueParent → Option (Option IssueParent)
  | none, ip => if ip.opens then some (some ip) else none
  | some o, ip => if ¬ip.opens ∧ ip.key = o.key then some none else none

/-- The open event after all the events of a link, if they opened and closed it in turn. -/
def ledger (ips : List IssueParent) : Option (Option IssueParent) := ips.foldlM follow none

/-- The `issue_parent` of the link `l` in an event. -/
def Event.of (l : Link) : Event → Option IssueParent
  | .issueParent kind ip =>
    if kind = l.kind ∧ ip.child = l.child ∧ ip.parent = l.parent then some ip else none
  | _ => none

/-- The `issue_parent` events of a link, among what was written to the stream. -/
def Link.events (l : Link) (stream : List Event) : List IssueParent := stream.filterMap (Event.of l)

@[simp] theorem Link.events_append (l : Link) (a b : List Event) :
    l.events (a ++ b) = l.events a ++ l.events b := List.filterMap_append

theorem ledger_append {a b : List IssueParent} {o : Option IssueParent}
    (h : ledger a = some o) : ledger (a ++ b) = b.foldlM follow o := by
  rw [ledger, List.foldlM_append, ← ledger, h]
  rfl

/-- Where an issue is closed in the stream, no link which touches its node is open. -/
def Closings (t : Topology) (stream : List Event) : Prop :=
  ∀ before i after, stream = before ++ .issue i :: after → i.endTime.isNull = false →
    ∀ l, t.IsLink l → l.Touches i.id → ledger (l.events before) = some none

/--
The events are paired: each is for a link; those of a link open and close it in turn, and leave
it open exactly when all the nodes it needs have an issue; and when an issue is closed, no link
which touches its node is open.
-/
structure Paired (t : Topology) (s : Correlator) : Prop where
  isLink : ∀ kind ip, Event.issueParent kind ip ∈ s.stream → t.IsLink ⟨kind, ip.child, ip.parent⟩
  ledger_eq : ∀ l, t.IsLink l → ∃ o, ledger (l.events s.stream) = some o ∧
    (o.isSome ↔ ∀ y ∈ l.needs t, (s.nodes y).myIssue.isSome)
  closing : Closings t s.stream

/-! ## The event a link has to show -/

/-- Since when each node has an issue. -/
def since (nodes : NodeId → Node) (x : NodeId) : Option Timestamp :=
  (nodes x).myIssue.map (·.startTime)

/-- The start of an issue parenting: `allParentsWithIssues` over the starts of the issues. -/
def latest (S : NodeId → Option Timestamp) : List NodeId → Timestamp → Option Timestamp
  | [], start => some start
  | p :: ps, start =>
    (S p).bind fun i => latest S ps (if start.isNull || start < i then i else start)

/-- The start of the `issue_parent` of a link, when all the nodes it needs have an issue. -/
def Link.start? (t : Topology) (S : NodeId → Option Timestamp) (l : Link) (c p : Timestamp) :
    Option Timestamp :=
  match l.kind with
  | .parenting => latest S (t.parents l.child) c
  | .dependency => some (max c p)

/-- The `issue_parent` of a link, when all the nodes it needs have an issue. -/
def Link.event? (t : Topology) (S : NodeId → Option Timestamp) (endTime : Timestamp) (l : Link) :
    Option IssueParent :=
  (S l.child).bind fun c => (S l.parent).bind fun p => (l.start? t S c p).map fun start =>
    { child := l.child
      childStartTime := c
      parent := l.parent
      parentStartTime := p
      startTime := start
      endTime := endTime }

theorem allParentsWithIssues_eq (nodes : NodeId → Node) (ps : List NodeId) (start : Timestamp) :
    allParentsWithIssues nodes ps start = latest (since nodes) ps start := by
  induction ps generalizing start with
  | nil => rfl
  | cons p ps ih =>
    unfold allParentsWithIssues latest since
    cases (nodes p).myIssue with
    | none => rfl
    | some i => exact ih _

variable {S : NodeId → Option Timestamp}

theorem latest_congr {S' : NodeId → Option Timestamp} {ps : List NodeId}
    (h : ∀ p ∈ ps, S p = S' p) (start : Timestamp) : latest S ps start = latest S' ps start := by
  induction ps generalizing start with
  | nil => rfl
  | cons p ps ih =>
    have hps : ∀ q ∈ ps, S q = S' q := fun q hq => h q (List.mem_cons_of_mem p hq)
    simp only [latest, h p List.mem_cons_self, ih hps]

theorem latest_isSome {ps : List NodeId} {start : Timestamp} :
    (latest S ps start).isSome ↔ ∀ p ∈ ps, (S p).isSome := by
  induction ps generalizing start with
  | nil => simp [latest]
  | cons p ps ih =>
    rw [latest, List.forall_mem_cons]
    cases S p with
    | none => simp
    | some i => simp [ih]

/-- The link has an event to show exactly when all the nodes it needs have an issue. -/
theorem Link.event?_isSome {t : Topology} (hl : t.IsLink l)
    {endTime : Timestamp} :
    (l.event? t S endTime).isSome ↔ ∀ y ∈ l.needs t, (S y).isSome := by
  unfold event?
  constructor
  · intro h
    obtain ⟨ip, h⟩ := Option.isSome_iff_exists.mp h
    simp only [Option.bind_eq_some_iff, Option.map_eq_some_iff] at h
    obtain ⟨c, hc, p, hp, start, hs, -⟩ := h
    unfold start? at hs
    unfold needs
    cases hk : l.kind with
    | parenting =>
      simp only [hk] at hs
      have hall := latest_isSome.mp (Option.isSome_of_eq_some hs)
      simpa [hc] using hall
    | dependency => simp [hc, hp]
  · intro h
    obtain ⟨c, hc⟩ := Option.isSome_iff_exists.mp (h _ (l.child_mem t))
    obtain ⟨p, hp⟩ := Option.isSome_iff_exists.mp (h _ hl.parent_mem)
    have hs : (l.start? t S c p).isSome := by
      unfold start?
      unfold needs at h
      cases hk : l.kind with
      | parenting =>
        simp only [hk, List.forall_mem_cons] at h
        exact latest_isSome.mpr h.2
      | dependency => rfl
    simp [hc, hp, hs]

/-- The event depends only on the nodes that the link needs. -/
theorem Link.event?_congr {t : Topology} (hl : t.IsLink l)
    {S' : NodeId → Option Timestamp} (h : ∀ y ∈ l.needs t, S y = S' y) (endTime : Timestamp) :
    l.event? t S endTime = l.event? t S' endTime := by
  have hstart : ∀ c p, l.start? t S c p = l.start? t S' c p := by
    intro c p
    unfold start?
    unfold needs at h
    cases hk : l.kind with
    | parenting =>
      simp only [hk, List.forall_mem_cons] at h
      exact latest_congr h.2 c
    | dependency => rfl
  simp only [event?, h _ (l.child_mem t), h _ hl.parent_mem, hstart]

/-- A closing event differs from the opening one in its end time only. -/
theorem Link.event?_endTime (t : Topology) (S : NodeId → Option Timestamp) (l : Link)
    (e e' : Timestamp) :
    l.event? t S e' = (l.event? t S e).map fun ip => { ip with endTime := e' } := by
  unfold event?
  cases S l.child with
  | none => rfl
  | some c =>
    cases S l.parent with
    | none => rfl
    | some p => simp [Function.comp_def]

theorem Link.event?_spec {t : Topology} {e : Timestamp}
    {ip : IssueParent} (h : l.event? t S e = some ip) :
    ip.child = l.child ∧ ip.parent = l.parent ∧ ip.endTime = e := by
  simp only [event?, Option.bind_eq_some_iff, Option.map_eq_some_iff] at h
  obtain ⟨c, -, p, -, start, -, rfl⟩ := h
  exact ⟨rfl, rfl, rfl⟩

/-! ## The links that the visits meet -/

/-- The link between the notified node and the updated one. -/
def LinkType.link (this n : NodeId) : LinkType → Link
  | .parent => ⟨.parenting, this, n⟩
  | .children => ⟨.parenting, n, this⟩
  | .dependedBy => ⟨.dependency, n, this⟩
  | .dependsOn => ⟨.dependency, this, n⟩

/-- What is written for a link. -/
def Link.written (t : Topology) (S : NodeId → Option Timestamp) (endTime : Timestamp) (l : Link) :
    List Event :=
  (l.event? t S endTime).toList.map (.issueParent l.kind)

/-- The links met by `_visit_linked_nodes` and `_visit_parent_of_child_nodes`, in order. -/
def Topology.visited (t : Topology) (x : NodeId) : List Link :=
  (t.parents x).map (⟨.parenting, x, ·⟩)
    ++ (t.children x).map (⟨.parenting, ·, x⟩)
    ++ (t.dependsOn x).map (⟨.dependency, x, ·⟩)
    ++ (t.dependedBy x).map (⟨.dependency, ·, x⟩)
    ++ (t.children x).flatMap fun c =>
      ((t.parents c).filter fun p => decide (p ≠ x)).map (⟨.parenting, c, ·⟩)

theorem later_eq (a b : ℤ) : (if a > b then a else b) = max a b := by
  split <;> omega

variable {nodes : NodeId → Node}

theorem linkedNodeUpdated_eq {t : Topology}
    (hid : ∀ x, (nodes x).state.id = x) (this n : NodeId) (startTime : Timestamp) (closed : Bool)
    (type : LinkType) :
    linkedNodeUpdated t nodes this n startTime closed type
      = (type.link this n).written t (since nodes) (if closed then startTime else -1) := by
  unfold linkedNodeUpdated Link.written Link.event? Link.start?
  simp only [allParentsWithIssues_eq, hid, later_eq]
  cases hm : (nodes this).myIssue with
  | none => cases type <;> simp [LinkType.link, since, hm]
  | some mine =>
    cases hn : (nodes n).myIssue with
    | none => cases type <;> simp [LinkType.link, since, hm, hn]
    | some its =>
      cases type with
      | parent =>
        cases h : latest (since nodes) (t.parents this) mine.startTime <;>
          simp [LinkType.link, since, hm, hn, h]
      | children =>
        cases h : latest (since nodes) (t.parents n) its.startTime <;>
          simp [LinkType.link, since, hm, hn, h]
      | dependedBy => simp [LinkType.link, since, hm, hn, Int.max_comm]
      | dependsOn => simp [LinkType.link, since, hm, hn]

/-- The two visits write for the links they meet. -/
theorem visit_eq {t : Topology} (hid : ∀ x, (nodes x).state.id = x)
    (x : NodeId) (lastStateChange : Timestamp) (closed : Bool) :
    visitLinkedNodes t nodes x lastStateChange closed
        ++ visitParentOfChildNodes t nodes x lastStateChange closed
      = (t.visited x).flatMap
          (Link.written t (since nodes) (if closed then lastStateChange else -1)) := by
  unfold visitLinkedNodes visitParentOfChildNodes Topology.visited
  simp only [linkedNodeUpdated_eq hid, LinkType.link]
  generalize Link.written t (since nodes) (if closed then lastStateChange else -1) = write
  have hothers : ∀ c, ((t.parents c).flatMap fun p => if p ≠ x then write ⟨.parenting, c, p⟩ else [])
      = (((t.parents c).filter fun p => decide (p ≠ x)).map (Link.mk .parenting c ·)).flatMap
          write := by
    intro c
    induction t.parents c with
    | nil => rfl
    | cons p ps ih =>
      rw [List.flatMap_cons, ih]
      by_cases hp : p = x <;> simp [hp]
  simp only [hothers, List.flatMap_append, List.flatMap_map, List.flatMap_assoc, List.append_assoc]

/-- The visits of a node meet the links that need it. -/
theorem Topology.mem_visited {t : Topology} {x : NodeId} :
    l ∈ t.visited x ↔ t.IsLink l ∧ x ∈ l.needs t := by
  obtain ⟨kind, c, p⟩ := l
  cases kind with
  | parenting =>
    simp only [visited, IsLink, Link.needs, List.mem_append, List.mem_map, List.mem_flatMap,
      List.mem_filter, List.mem_cons, t.mem_children, Link.mk.injEq]
    grind
  | dependency =>
    simp only [visited, IsLink, Link.needs, List.mem_append, List.mem_map, List.mem_flatMap,
      List.mem_filter, List.mem_cons, t.mem_dependedBy, Link.mk.injEq]
    grind

theorem Topology.visited_nodup (t : Topology) (x : NodeId) : (t.visited x).Nodup := by
  have hchild : ∀ kind c, Function.Injective (Link.mk kind c) :=
    fun _ _ _ _ h => (Link.mk.injEq ..▸ h).2.2
  have hparent : ∀ kind p, Function.Injective (Link.mk kind · p) :=
    fun _ _ _ _ h => (Link.mk.injEq ..▸ h).2.1
  have hothers : ((t.children x).flatMap fun c =>
      ((t.parents c).filter fun p => decide (p ≠ x)).map (Link.mk .parenting c ·)).Nodup := by
    refine List.nodup_flatMap.mpr ⟨fun c _ => ((t.parents_nodup c).filter _).map (hchild _ _), ?_⟩
    refine (t.children_nodup x).imp fun {c c'} hne => ?_
    simp only [Function.onFun, List.disjoint_left, List.mem_map]
    rintro l ⟨p, -, rfl⟩ ⟨p', -, h⟩
    exact hne (Link.mk.injEq ..▸ h).2.1.symm
  have hp := t.parents_irrefl x
  have hd := t.dependsOn_irrefl x
  unfold visited
  simp only [List.nodup_append', List.disjoint_left, List.mem_append, List.mem_map,
    List.mem_flatMap, t.mem_children, t.mem_dependedBy]
  refine ⟨⟨⟨⟨?_, ?_, ?_⟩, ?_, ?_⟩, ?_, ?_⟩, hothers, ?_⟩
  · exact (t.parents_nodup x).map (hchild _ _)
  · exact (t.children_nodup x).map (hparent _ _)
  · grind
  · exact (t.dependsOn_nodup x).map (hchild _ _)
  · grind
  · exact (t.dependedBy_nodup x).map (hparent _ _)
  · grind
  · grind

theorem Link.events_written (t : Topology) (S : NodeId → Option Timestamp) (e : Timestamp)
    (l l' : Link) :
    l.events (l'.written t S e) = if l' = l then (l.event? t S e).toList else [] := by
  obtain ⟨kind, c, p⟩ := l
  obtain ⟨kind', c', p'⟩ := l'
  unfold events written
  cases h : Link.event? t S e ⟨kind', c', p'⟩ with
  | none =>
    split
    · rename_i heq
      rw [← heq, h]
      rfl
    · rfl
  | some ip =>
    obtain ⟨hc, hp, -⟩ := event?_spec h
    by_cases heq : (⟨kind', c', p'⟩ : Link) = ⟨kind, c, p⟩
    · cases heq
      simp [h, Event.of, hc, hp]
    · have hne : ¬(kind' = kind ∧ c' = c ∧ p' = p) := fun h => heq (by rw [h.1, h.2.1, h.2.2])
      simp [Event.of, hc, hp, hne]

/-- Among links met once, the events of a link are its own. -/
theorem Link.events_flatMap (t : Topology) (S : NodeId → Option Timestamp) (e : Timestamp)
    (l : Link) {ls : List Link} (h : ls.Nodup) :
    l.events (ls.flatMap (written t S e)) = if l ∈ ls then (l.event? t S e).toList else [] := by
  induction ls with
  | nil => rfl
  | cons l' ls ih =>
    obtain ⟨hnot, hls⟩ := List.nodup_cons.mp h
    rw [List.flatMap_cons, events_append, events_written, ih hls]
    by_cases heq : l' = l
    · subst heq
      simp [hnot]
    · simp [heq, Ne.symm heq]

/-! ## What a call does -/

/-- The node once its state has changed, before its issue is opened or closed. -/
def Node.changed (n : Node) (newState : ℤ) (lastStateChange : Timestamp) : Node :=
  let n := n.removeAcknowledgement newState
  (n.generateStateEvent lastStateChange newState n.state.inDowntime).2

/-- The states that are written when the state of the node changes. -/
def Node.states (n : Node) (newState : ℤ) (lastStateChange : Timestamp) : List Event :=
  let n := n.removeAcknowledgement newState
  (n.generateStateEvent lastStateChange newState n.state.inDowntime).1

section Changed

variable (n : Node) (newState : ℤ) (lastStateChange : Timestamp)

@[simp] theorem Node.removeAcknowledgement_state :
    (n.removeAcknowledgement newState).state = n.state := by
  unfold removeAcknowledgement
  repeat' split
  all_goals rfl

@[simp] theorem Node.removeAcknowledgement_myIssue :
    (n.removeAcknowledgement newState).myIssue = n.myIssue := by
  unfold removeAcknowledgement
  repeat' split
  all_goals rfl

@[simp] theorem Node.changed_id : (n.changed newState lastStateChange).state.id = n.state.id := by
  simp [changed, generateStateEvent, openStateEvent]

@[simp] theorem Node.changed_currentState :
    (n.changed newState lastStateChange).state.currentState = newState := rfl

@[simp] theorem Node.changed_myIssue :
    (n.changed newState lastStateChange).myIssue = n.myIssue := by
  simp [changed, generateStateEvent]

theorem Node.mem_states {e : Event} (h : e ∈ n.states newState lastStateChange) :
    ∃ st, e = .state st := by
  simp only [states, generateStateEvent, List.mem_cons, List.not_mem_nil, or_false] at h
  rcases h with rfl | rfl <;> exact ⟨_, rfl⟩

@[simp] theorem Link.events_states (l : Link) :
    l.events (n.states newState lastStateChange) = [] := by
  refine List.filterMap_eq_nil_iff.mpr fun e he => ?_
  obtain ⟨st, rfl⟩ := n.mem_states newState lastStateChange he
  rfl

end Changed

@[simp] theorem Link.events_issue (l : Link) (i : Issue) : l.events [.issue i] = [] := rfl

/-- The node and its issue have the id `x`, and it has an issue while its state is not 0. -/
structure Node.Consistent (x : NodeId) (n : Node) : Prop where
  id_eq : n.state.id = x
  issue_id : ∀ i, n.myIssue = some i → i.id = x
  issue_iff : n.state.currentState = 0 ↔ n.myIssue = none

theorem Node.Consistent.update (h : ∀ y, (nodes y).Consistent y)
    {x : NodeId} {n : Node} (hn : n.Consistent x) (y : NodeId) :
    (Function.update nodes x n y).Consistent y := by
  by_cases hy : y = x
  · subst hy
    rwa [Function.update_self]
  · rw [Function.update_of_ne hy]
    exact h y

/-- The nodes are consistent, and the links which have an event to show are open, by this event. -/
structure Sound (t : Topology) (s : Correlator) : Prop where
  consistent : ∀ x, (s.nodes x).Consistent x
  isLink : ∀ kind ip, Event.issueParent kind ip ∈ s.stream → t.IsLink ⟨kind, ip.child, ip.parent⟩
  ledger_eq : ∀ l, t.IsLink l →
    ledger (l.events s.stream) = some (l.event? t (since s.nodes) (-1))
  closing : Closings t s.stream

/-- Every node is up, and nothing has been written. -/
def Correlator.Fresh (s : Correlator) : Prop :=
  (∀ x, (s.nodes x).state.id = x ∧ (s.nodes x).state.currentState = 0 ∧
    (s.nodes x).myIssue = none) ∧ s.stream = []

section Step

variable {t : Topology} {s : Correlator} {x : NodeId} {newState : ℤ} {time : Timestamp}

theorem Correlator.manageStatus_same (h : (s.nodes x).state.currentState = newState) :
    s.manageStatus t x newState time = s := by
  rw [manageStatus, if_pos h]

/-- From a problem to another one, only the states are written. -/
theorem Correlator.manageStatus_still (h : (s.nodes x).state.currentState ≠ newState)
    (hold : (s.nodes x).state.currentState ≠ 0) (hnew : newState ≠ 0) :
    s.manageStatus t x newState time
      = ⟨Function.update s.nodes x ((s.nodes x).changed newState time),
        s.stream ++ (s.nodes x).states newState time⟩ := by
  rw [manageStatus, if_neg h, if_neg hnew, if_neg hold]
  rfl

/-- A problem writes the new issue, and opens the links that the visits meet. -/
theorem Correlator.manageStatus_opens (hid : ∀ y, (s.nodes y).state.id = y)
    (hold : (s.nodes x).state.currentState = 0) (hnew : newState ≠ 0) :
    ∃ (n : Node) (i : Issue), n.state.id = x ∧ n.state.currentState = newState ∧
      n.myIssue = some i ∧ i.id = x ∧ i.endTime = -1 ∧
      s.manageStatus t x newState time
        = ⟨Function.update s.nodes x n, s.stream ++ (s.nodes x).states newState time ++ [.issue i]
          ++ (t.visited x).flatMap (Link.written t (since (Function.update s.nodes x n)) (-1))⟩ := by
  have h : (s.nodes x).state.currentState ≠ newState := by rw [hold]; exact hnew.symm
  let n := (s.nodes x).changed newState time
  let i : Issue :=
    { startTime := time
      id := n.state.id
      ackTime := if n.acknowledgement.isSome then time else -1 }
  have hn : n.state.id = x := ((s.nodes x).changed_id newState time).trans (hid x)
  have hid' : ∀ y, (Function.update s.nodes x { n with myIssue := some i } y).state.id = y := by
    intro y
    by_cases hy : y = x
    · subst hy
      simpa using hn
    · simpa [hy] using hid y
  refine ⟨{ n with myIssue := some i }, i, hn, rfl, rfl, hn, rfl, ?_⟩
  rw [manageStatus, if_neg h, if_neg hnew, if_pos hold]
  have hvisit := visit_eq (t := t) hid' x time false
  simp only [Bool.false_eq_true, if_false] at hvisit
  rw [← hvisit, ← List.append_assoc]
  rfl

/-- A recovery closes the links that the visits meet, and then writes the closed issue. -/
theorem Correlator.manageStatus_closes (hid : ∀ y, (s.nodes y).state.id = y) {i : Issue}
    (hissue : (s.nodes x).myIssue = some i) (hold : (s.nodes x).state.currentState ≠ 0) :
    ∃ n : Node, n.state.id = x ∧ n.state.currentState = 0 ∧ n.myIssue = none ∧
      s.manageStatus t x 0 time
        = ⟨Function.update s.nodes x n, s.stream ++ (s.nodes x).states 0 time
          ++ (t.visited x).flatMap (Link.written t (since s.nodes) time)
          ++ [.issue { i with endTime := time }]⟩ := by
  let n := (s.nodes x).changed 0 time
  have hn : n.state.id = x := ((s.nodes x).changed_id 0 time).trans (hid x)
  have hni : n.myIssue = some i := ((s.nodes x).changed_myIssue 0 time).trans hissue
  -- the end time of its issue is set before the visits, which do not look at it
  let nodes := Function.update s.nodes x { n with myIssue := some { i with endTime := time } }
  have hid' : ∀ y, (nodes y).state.id = y := by
    intro y
    by_cases hy : y = x
    · subst hy
      simpa [nodes] using hn
    · simpa [nodes, hy] using hid y
  have hsince : since nodes = since s.nodes := by
    funext y
    by_cases hy : y = x
    · subst hy
      simp [nodes, since, hissue]
    · simp [nodes, since, hy]
  refine ⟨{ n with myIssue := none }, hn, rfl, rfl, ?_⟩
  have hvisit := visit_eq (t := t) hid' x time true
  rw [if_pos rfl, hsince] at hvisit
  rw [manageStatus, if_neg hold, if_pos rfl, ← hvisit, ← List.append_assoc]
  dsimp only
  split
  · rename_i hnone
    rw [show (s.nodes x).myIssue = none from
      ((s.nodes x).changed_myIssue 0 time).symm.trans hnone] at hissue
    cases hissue
  · rename_i i' hi'
    obtain rfl : i' = i := Option.some.inj (hi'.symm.trans hni)
    rw [Function.update_idem]
    rfl

end Step

/-! ## Every run -/

theorem Link.event?_none {t : Topology} (hl : t.IsLink l)
    {x : NodeId} (hx : x ∈ l.needs t) (h : S x = none)
    (e : Timestamp) : l.event? t S e = none := by
  refine Option.not_isSome_iff_eq_none.mp fun hsome => ?_
  have := (event?_isSome hl).mp hsome x hx
  rw [h] at this
  cases this

/-- When the nodes that a link needs keep their issues, the link has the same event to show. -/
theorem Link.event?_update {t : Topology} (hl : t.IsLink l)
    {x : NodeId} (hx : x ∉ l.needs t) (n : Node) (e : Timestamp) :
    l.event? t (since (Function.update nodes x n)) e = l.event? t (since nodes) e := by
  refine event?_congr hl (fun y hy => ?_) e
  have hne : y ≠ x := fun h => hx (h ▸ hy)
  simp [since, hne]

theorem Correlator.Fresh.sound {t : Topology} {s : Correlator} (h : s.Fresh) : Sound t s where
  consistent x := by
    obtain ⟨hid, hstate, hissue⟩ := h.1 x
    refine ⟨hid, fun i hi => ?_, fun _ => hissue, fun _ => hstate⟩
    rw [hissue] at hi
    cases hi
  isLink kind ip hip := by
    rw [h.2] at hip
    cases hip
  ledger_eq l hl := by
    rw [h.2, Link.event?_none hl (l.child_mem t) (by simp [since, (h.1 l.child).2.2])]
    rfl
  closing before i after hs := by
    rw [h.2] at hs
    cases before <;> cases hs

/-- What is written without closing an issue keeps the closings. -/
theorem Closings.append {t : Topology} {a b : List Event} (h : Closings t a)
    (hb : ∀ i, Event.issue i ∈ b → i.endTime.isNull) : Closings t (a ++ b) := by
  intro before i after hs hclosed
  rcases List.append_eq_append_iff.mp hs with ⟨bs, rfl, rfl⟩ | ⟨as, rfl, hbs⟩
  · have := hb i (by simp)
    rw [hclosed] at this
    cases this
  · cases as with
    | nil =>
      rw [List.nil_append] at hbs
      have := hb i (by rw [← hbs]; exact List.mem_cons_self)
      rw [hclosed] at this
      cases this
    | cons e as =>
      simp only [List.cons_append, List.cons.injEq] at hbs
      exact h before i as (by rw [hbs.1]) hclosed

/-- An issue is closed once the links that touch its node are. -/
theorem Closings.snoc {t : Topology} {a : List Event} {i : Issue} (h : Closings t a)
    (hi : ∀ l, t.IsLink l → l.Touches i.id → ledger (l.events a) = some none) :
    Closings t (a ++ [.issue i]) := by
  intro before i' after hs hclosed
  rcases List.append_eq_append_iff.mp hs with ⟨bs, rfl, hbs⟩ | ⟨as, rfl, hbs⟩
  · cases bs with
    | nil =>
      simp only [List.nil_append, List.cons.injEq, Event.issue.injEq] at hbs
      obtain ⟨rfl, -⟩ := hbs
      simpa using hi
    | cons e bs => simp at hbs
  · cases as with
    | nil =>
      simp only [List.nil_append, List.cons.injEq, Event.issue.injEq] at hbs
      obtain ⟨rfl, -⟩ := hbs
      simpa using hi
    | cons e as =>
      simp only [List.cons_append, List.cons.injEq] at hbs
      exact h before i' as (by rw [hbs.1]) hclosed

/-- What the visits write are the events of the links they meet. -/
theorem Topology.mem_flatMap_visited {t : Topology}
    {e : Timestamp} {x : NodeId} {ev : Event}
    (h : ev ∈ (t.visited x).flatMap (Link.written t S e)) :
    ∃ kind ip, ev = .issueParent kind ip ∧ t.IsLink ⟨kind, ip.child, ip.parent⟩ := by
  obtain ⟨l, hl, hev⟩ := List.mem_flatMap.mp h
  simp only [Link.written, List.mem_map, Option.mem_toList] at hev
  obtain ⟨ip, hip, rfl⟩ := hev
  obtain ⟨hc, hp, -⟩ := Link.event?_spec hip
  refine ⟨l.kind, ip, rfl, ?_⟩
  rw [hc, hp]
  exact (mem_visited.mp hl).1

namespace Sound

open Link

variable {t : Topology} {s : Correlator} {x : NodeId} {newState : ℤ} {time : Timestamp}

/-- The events of a link after the visits of `x`, where the rest is not about links. -/
theorem events_visited {l : Link} (hl : t.IsLink l) (S : NodeId → Option Timestamp)
    (e : Timestamp) :
    l.events ((t.visited x).flatMap (Link.written t S e))
      = if x ∈ l.needs t then (l.event? t S e).toList else [] := by
  rw [l.events_flatMap t S e (t.visited_nodup x)]
  simp only [Topology.mem_visited, hl, true_and]

theorem still (h : Sound t s) (hne : (s.nodes x).state.currentState ≠ newState)
    (hold : (s.nodes x).state.currentState ≠ 0) (hnew : newState ≠ 0) :
    Sound t (s.manageStatus t x newState time) := by
  rw [Correlator.manageStatus_still hne hold hnew]
  have hsince : since (Function.update s.nodes x ((s.nodes x).changed newState time))
      = since s.nodes := by
    funext y
    by_cases hy : y = x
    · subst hy
      simp [since]
    · simp [since, hy]
  constructor
  case consistent =>
    refine Node.Consistent.update h.consistent ⟨?_, ?_, ?_⟩
    · simpa using (h.consistent x).id_eq
    · simpa using (h.consistent x).issue_id
    · simp [hnew, ← (h.consistent x).issue_iff, hold]
  case isLink =>
    intro kind ip hip
    rcases List.mem_append.mp hip with hip | hip
    · exact h.isLink kind ip hip
    · obtain ⟨st, hst⟩ := Node.mem_states _ _ _ hip
      cases hst
  case ledger_eq =>
    intro l hl
    simpa [hsince] using h.ledger_eq l hl
  case closing =>
    refine h.closing.append fun i hi => ?_
    obtain ⟨st, hst⟩ := Node.mem_states _ _ _ hi
    cases hst

theorem opens (h : Sound t s) (hold : (s.nodes x).state.currentState = 0) (hnew : newState ≠ 0) :
    Sound t (s.manageStatus t x newState time) := by
  obtain ⟨n, i, hid, hstate, hissue, hi, hend, heq⟩ :=
    @Correlator.manageStatus_opens t s x newState time (fun y => (h.consistent y).id_eq) hold hnew
  have hnone : since s.nodes x = none := by simp [since, (h.consistent x).issue_iff.mp hold]
  rw [heq]
  constructor
  case consistent =>
    refine Node.Consistent.update h.consistent ⟨hid, fun j hj => ?_, ?_⟩
    · rw [hissue] at hj
      cases hj
      exact hi
    · simp [hstate, hissue, hnew]
  case isLink =>
    intro kind ip hip
    simp only [List.append_assoc, List.mem_append, List.mem_singleton] at hip
    rcases hip with hip | hip | hip | hip
    · exact h.isLink kind ip hip
    · obtain ⟨st, hst⟩ := Node.mem_states _ _ _ hip
      cases hst
    · cases hip
    · obtain ⟨kind', ip', heq', hl⟩ := Topology.mem_flatMap_visited hip
      cases heq'
      exact hl
  case ledger_eq =>
    intro l hl
    simp only [events_append, events_states, events_issue, List.append_nil,
      events_visited hl]
    rw [ledger_append (h.ledger_eq l hl)]
    by_cases hx : x ∈ l.needs t
    · -- the link was closed, as `x` had no issue
      rw [if_pos hx, event?_none hl hx hnone]
      cases hev : l.event? t (since (Function.update s.nodes x n)) (-1) with
      | none => rfl
      | some ip =>
        have hopens : ip.opens = true := by
          rw [IssueParent.opens, (event?_spec hev).2.2]
          rfl
        simp [follow, hopens]
    · rw [if_neg hx, event?_update hl hx]
      rfl
  case closing =>
    rw [List.append_assoc, List.append_assoc]
    refine h.closing.append fun j hj => ?_
    simp only [List.mem_append, List.mem_singleton] at hj
    rcases hj with hj | hj | hj
    · obtain ⟨st, hst⟩ := Node.mem_states _ _ _ hj
      cases hst
    · cases hj
      rw [hend]
      rfl
    · obtain ⟨kind, ip, hev, -⟩ := Topology.mem_flatMap_visited hj
      cases hev

/-- A link that needs `x` is closed once the visits of `x` are over. -/
theorem ledger_closed (h : Sound t s) (htime : time.isNull = false) {states : List Event} {l : Link}
    (hl : t.IsLink l) (hstates : l.events states = []) (hx : x ∈ l.needs t) :
    ledger (l.events (s.stream ++ states
      ++ (t.visited x).flatMap (Link.written t (since s.nodes) time))) = some none := by
  simp only [events_append, hstates, List.append_nil, events_visited hl, if_pos hx]
  rw [ledger_append (h.ledger_eq l hl), l.event?_endTime t _ (-1) time]
  cases hev : l.event? t (since s.nodes) (-1) with
  | none => rfl
  | some ip =>
    have hcloses : IssueParent.opens { ip with endTime := time } = false := htime
    have hkey : IssueParent.key { ip with endTime := time } = ip.key := rfl
    simp [follow, hcloses, hkey]

theorem closes (h : Sound t s) (hold : (s.nodes x).state.currentState ≠ 0)
    (htime : time.isNull = false) : Sound t (s.manageStatus t x 0 time) := by
  obtain ⟨i, hi⟩ := Option.ne_none_iff_exists'.mp (mt (h.consistent x).issue_iff.mpr hold)
  obtain ⟨n, hid, hstate, hissue, heq⟩ :=
    @Correlator.manageStatus_closes t s x time (fun y => (h.consistent y).id_eq) i hi hold
  have hnone : since (Function.update s.nodes x n) x = none := by simp [since, hissue]
  rw [heq]
  constructor
  case consistent =>
    refine Node.Consistent.update h.consistent ⟨hid, fun j hj => ?_, ?_⟩
    · rw [hissue] at hj
      cases hj
    · simp [hstate, hissue]
  case isLink =>
    intro kind ip hip
    simp only [List.append_assoc, List.mem_append, List.mem_singleton] at hip
    rcases hip with hip | hip | hip | hip
    · exact h.isLink kind ip hip
    · obtain ⟨st, hst⟩ := Node.mem_states _ _ _ hip
      cases hst
    · obtain ⟨kind', ip', heq', hl⟩ := Topology.mem_flatMap_visited hip
      cases heq'
      exact hl
    · cases hip
  case ledger_eq =>
    intro l hl
    rw [events_append, events_issue, List.append_nil]
    by_cases hx : x ∈ l.needs t
    · rw [h.ledger_closed htime hl (events_states _ _ _ l) hx, event?_none hl hx hnone]
    · rw [event?_update hl hx]
      simp only [events_append, events_states, List.append_nil, events_visited hl,
        if_neg hx]
      exact h.ledger_eq l hl
  case closing =>
    refine Closings.snoc ?_ fun l hl hx => ?_
    · rw [List.append_assoc]
      refine h.closing.append fun j hj => ?_
      rcases List.mem_append.mp hj with hj | hj
      · obtain ⟨st, hst⟩ := Node.mem_states _ _ _ hj
        cases hst
      · obtain ⟨kind, ip, hev, -⟩ := Topology.mem_flatMap_visited hj
        cases hev
    · have hxi : l.Touches x := (h.consistent x).issue_id i hi ▸ hx
      exact h.ledger_closed htime hl (events_states _ _ _ l) (hl.mem_of_touches hxi)

/-- A call keeps the correlator sound, if a recovery comes with a time. -/
theorem manageStatus (h : Sound t s) (htime : newState = 0 → time.isNull = false) :
    Sound t (s.manageStatus t x newState time) := by
  by_cases hsame : (s.nodes x).state.currentState = newState
  · rw [Correlator.manageStatus_same hsame]
    exact h
  · by_cases hnew : newState = 0
    · subst hnew
      exact h.closes hsame (htime rfl)
    · by_cases hold : (s.nodes x).state.currentState = 0
      · exact h.opens hold hnew
      · exact h.still hsame hold hnew

theorem run (h : Sound t s) (calls : List Call)
    (htime : ∀ c ∈ calls, c.newState = 0 → c.lastStateChange.isNull = false) :
    Sound t (s.run t calls) := by
  induction calls generalizing s with
  | nil => exact h
  | cons c calls ih =>
    exact ih (h.manageStatus (htime c List.mem_cons_self))
      fun c' hc' => htime c' (List.mem_cons_of_mem c hc')

theorem paired (h : Sound t s) : Paired t s where
  isLink := h.isLink
  ledger_eq l hl := by
    refine ⟨_, h.ledger_eq l hl, (event?_isSome hl).trans ?_⟩
    simp only [since, Option.isSome_map]
  closing := h.closing

end Sound

/--
From a fresh correlator, whatever the links and the calls, the issue parenting events are paired
as long as the recoveries come with a time that is not null.
-/
theorem Correlator.run_paired (t : Topology) (s : Correlator) (hs : s.Fresh) (calls : List Call)
    (htime : ∀ c ∈ calls, c.newState = 0 → c.lastStateChange.isNull = false) :
    Paired t (s.run t calls) :=
  (hs.sound.run calls htime).paired

def hostA : NodeId := ⟨1, 0⟩
def hostB : NodeId := ⟨2, 0⟩

/-- Two hosts, the first a parent of the second. -/
def twoHosts : Topology where
  parents x := if x = hostB then [hostA] else []
  children x := if x = hostA then [hostB] else []
  dependsOn _ := []
  dependedBy _ := []
  parents_nodup x := by split <;> simp
  children_nodup x := by split <;> simp
  dependsOn_nodup _ := List.nodup_nil
  dependedBy_nodup _ := List.nodup_nil
  mem_children x y := by
    by_cases hx : x = hostA <;> by_cases hy : y = hostB <;> simp [hx, hy]
  mem_dependedBy _ _ := by simp
  parents_irrefl x := by
    by_cases hx : x = hostB
    · rw [if_pos hx, hx]
      decide
    · rw [if_neg hx]
      simp
  dependsOn_irrefl _ := by simp

def allUp : Correlator := ⟨fun x => { state := { currentState := 0, id := x } }, []⟩

theorem allUp_fresh : allUp.Fresh := ⟨fun _ => ⟨rfl, rfl, rfl⟩, rfl⟩

/-- A recovery of the child closes the link, which opens again with its next problem. -/
theorem run_paired_twoHosts :
    Paired twoHosts
      (allUp.run twoHosts [⟨hostA, 1, 10⟩, ⟨hostB, 1, 20⟩, ⟨hostB, 0, 30⟩, ⟨hostB, 2, 40⟩]) :=
  Correlator.run_paired twoHosts allUp allUp_fresh _ (by decide)

/-- A recovery whose time is null writes an event with no end time for a link that is open. -/
theorem not_paired :
    ¬ ∀ (t : Topology) (s : Correlator), s.Fresh → ∀ calls, Paired t (s.run t calls) := by
  intro h
  obtain ⟨o, ho, -⟩ := (h twoHosts allUp allUp_fresh
    [⟨hostA, 1, 10⟩, ⟨hostB, 1, 20⟩, ⟨hostB, 0, 0⟩]).ledger_eq ⟨.parenting, hostB, hostA⟩
      (by simp [Topology.IsLink, twoHosts])
  have hnone : (ledger (Link.events ⟨.parenting, hostB, hostA⟩ (allUp.run twoHosts
      [⟨hostA, 1, 10⟩, ⟨hostB, 1, 20⟩, ⟨hostB, 0, 0⟩]).stream)).isSome = false := by decide +kernel
  rw [ho] at hnone
  cases hnone

end CentreonBroker.Correlation
