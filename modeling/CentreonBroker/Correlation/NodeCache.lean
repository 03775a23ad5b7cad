import CentreonBroker.Correlation.AckLife

/-!
# The nodes in the persistent cache

The stream saves its nodes as events: the issue, the state, the downtimes and the acknowledgement of
each. The issue and the state are put back as they were. The downtimes and the acknowledgement go
through the calls for live events, of which the second stamps the issue and the state with the time of
the acknowledgement.
-/

namespace CentreonBroker.Correlation

/-- What a node is saved as. -/
inductive Cached where
  | issue (i : Issue)
  | state (st : State)
  | downtime (d : Downtime)
  | ack (a : Ack)

def Cached.id : Cached → NodeId
  | .issue i => i.id
  | .state st => st.id
  | .downtime d => d.id
  | .ack a => a.id

/-- `node::serialize`. -/
def FullNode.serialize (n : FullNode) : List Cached :=
  n.myIssue.toList.map .issue ++ [.state n.state] ++ n.downtimes.list.map .downtime ++
    n.acknowledgement.toList.map .ack

/-- `_save_persistent_cache`: the nodes are saved in the order of their ids. -/
def savePersistentCache (ids : List NodeId) (nodes : NodeId → FullNode) : List Cached :=
  ids.flatMap fun x => (nodes x).serialize

/-- What an event of the cache does to its node. -/
def FullNode.load (n : FullNode) : Cached → FullNode
  | .issue i => { n with myIssue := some i }
  | .state st => { n with state := st }
  | .downtime d => (n.manageDowntime d false).2
  | .ack a => (n.manageAck a false).2

/-- `_load_correlation_event`. -/
def loadCorrelationEvent (ids : List NodeId) (nodes : NodeId → FullNode) (e : Cached) :
    NodeId → FullNode :=
  if e.id ∈ ids then Function.update nodes e.id ((nodes e.id).load e) else nodes

/-- `_load_correlation`, with the events of the cache. -/
def loadCorrelation (ids : List NodeId) (nodes : NodeId → FullNode) (es : List Cached) :
    NodeId → FullNode := es.foldl (loadCorrelationEvent ids) nodes

/-- The issue and the state have the time of the acknowledgement. -/
def FullNode.Stamped (n : FullNode) : Prop :=
  ∀ a, n.acknowledgement = some a → n.state.ackTime = a.entryTime ∧
    ∀ i, n.myIssue = some i → i.ackTime = a.entryTime

/-! ## One node -/

namespace FullNode

variable {n m : FullNode} {x : NodeId}

/-- The events of a node are for this node. -/
theorem Sound.id_serialize (h : n.Sound x) : ∀ e ∈ n.serialize, e.id = x := by
  intro e he
  rcases List.mem_append.mp he with he | he
  · rcases List.mem_append.mp he with he | he
    · rcases List.mem_append.mp he with he | he
      · obtain ⟨i, hi, rfl⟩ := List.mem_map.mp he
        exact h.issue_id i (Option.mem_toList.mp hi)
      · rw [List.mem_singleton.mp he]
        exact h.id_eq
    · obtain ⟨d, hd, rfl⟩ := List.mem_map.mp he
      exact (h.running d hd).1
  · obtain ⟨a, ha, rfl⟩ := List.mem_map.mp he
    exact (h.created a (Option.mem_toList.mp ha)).1

/-- Downtimes that run go into the map, and the flag is there already. -/
theorem load_downtimes {ds : List Downtime}
    (hrunning : ∀ d ∈ ds, d.actualStartTime.isNull = false ∧ d.actualEndTime.isNull = true)
    (hflag : ds ≠ [] → m.state.inDowntime = true) :
    (ds.map Cached.downtime).foldl load m = { m with downtimes := ds.foldl Downtimes.insert m.downtimes } := by
  induction ds generalizing m with
  | nil => rfl
  | cons d ds ih =>
    obtain ⟨hstart, hend⟩ := hrunning d List.mem_cons_self
    have hin := hflag (List.cons_ne_nil d ds)
    have hload : m.load (.downtime d) = { m with downtimes := m.downtimes.insert d } := by
      rw [load, manageDowntime_start hstart hend, if_pos hin]
    rw [List.map_cons, List.foldl_cons, hload]
    exact ih (fun d' hd' => hrunning d' (List.mem_cons_of_mem d hd')) fun _ => hin

theorem insert_all_of_mem {ds : Downtimes} {l : List Downtime} (h : ∀ d ∈ l, d ∈ ds.list) :
    l.foldl Downtimes.insert ds = ds := by
  induction l with
  | nil => rfl
  | cons d l ih =>
    rw [List.foldl_cons, Downtimes.insert_of_mem (h d List.mem_cons_self)]
    exact ih fun d' hd' => h d' (List.mem_cons_of_mem d hd')

theorem insert_all_empty {l : List Downtime} (h : l.Pairwise (·.internalId < ·.internalId)) :
    (l.foldl Downtimes.insert .empty).list = l := by
  induction l using List.reverseRecOn with
  | nil => rfl
  | append_singleton l d ih =>
    obtain ⟨hl, -, hcross⟩ := List.pairwise_append.mp h
    rw [List.foldl_append]
    show ((l.foldl Downtimes.insert .empty).insert d).list = l ++ [d]
    rw [Downtimes.insert_of_lt, ih hl]
    intro d' hd'
    rw [ih hl] at hd'
    exact hcross d' hd' d (List.mem_singleton_self d)

/-- What a node is loaded into: a new node, or itself. -/
structure Loadable (n m : FullNode) : Prop where
  myIssue : m.myIssue = none ∨ m.myIssue = n.myIssue
  acknowledgement : m.acknowledgement = none ∨ m.acknowledgement = n.acknowledgement
  downtimes : m.downtimes = .empty ∨ m.downtimes = n.downtimes

/-- What the acknowledgement makes of its node. -/
def restamped (n : FullNode) : FullNode :=
  match n.acknowledgement with
  | none => n
  | some a => (n.manageAck a false).2

/-- **A node is loaded as it was**, but for what its acknowledgement makes of it. -/
theorem load_serialize (h : n.Sound x) (hm : Loadable n m) : n.serialize.foldl load m = n.restamped := by
  rw [serialize, List.foldl_append, List.foldl_append, List.foldl_append]
  have hissue : (n.myIssue.toList.map Cached.issue).foldl load m = { m with myIssue := n.myIssue } := by
    cases hi : n.myIssue with
    | some i => rfl
    | none =>
      have hnone : m.myIssue = none := by
        rcases hm.myIssue with hnone | hsame
        · exact hnone
        · exact hsame.trans hi
      show m = { m with myIssue := none }
      rw [← hnone]
  rw [hissue]
  show (n.acknowledgement.toList.map Cached.ack).foldl load ((n.downtimes.list.map Cached.downtime).foldl
    load { m with myIssue := n.myIssue, state := n.state }) = n.restamped
  rw [load_downtimes (m := { m with myIssue := n.myIssue, state := n.state })
    (fun d hd => (h.running d hd).2) h.downtime_iff.mpr]
  have hdowntimes : n.downtimes.list.foldl Downtimes.insert m.downtimes = n.downtimes := by
    rcases hm.downtimes with hempty | hsame
    · rw [hempty]
      exact Downtimes.ext (insert_all_empty n.downtimes.sorted)
    · rw [hsame]
      exact insert_all_of_mem fun d hd => hd
  rw [hdowntimes]
  unfold restamped
  cases hack : n.acknowledgement with
  | some a =>
    have hcreated := (h.created a hack).2
    show (manageAck _ a false).2 = (manageAck _ a false).2
    simp only [manageAck, if_pos hcreated]
  | none =>
    have hnone : m.acknowledgement = none := by
      rcases hm.acknowledgement with hnone | hsame
      · exact hnone
      · exact hsame.trans hack
    show ({ m with myIssue := n.myIssue, state := n.state, downtimes := n.downtimes } : FullNode) = n
    rw [hnone, ← hack]

/-- The acknowledgement makes the same of it where the times are its own. -/
theorem restamped_eq_iff (h : n.Sound x) : n.restamped = n ↔ n.Stamped := by
  unfold restamped
  cases hack : n.acknowledgement with
  | none =>
    refine iff_of_true rfl ?_
    intro a ha
    rw [hack] at ha
    cases ha
  | some a =>
    have hcreated := (h.created a hack).2
    show (n.manageAck a false).2 = n ↔ _
    simp only [manageAck, if_pos hcreated]
    constructor
    · intro heq a' ha'
      obtain rfl : a = a' := Option.some.inj (hack.symm.trans ha')
      refine ⟨(congrArg (·.state.ackTime) heq).symm, ?_⟩
      intro i hi
      have hissue := congrArg FullNode.myIssue heq
      rw [hi] at hissue
      exact (congrArg Issue.ackTime (Option.some.inj hissue)).symm
    · intro hstamped
      obtain ⟨hstate, hissue⟩ := hstamped a hack
      have hmap : n.myIssue.map (fun i => { i with ackTime := a.entryTime }) = n.myIssue := by
        cases hi : n.myIssue with
        | none => rfl
        | some i =>
          show some { i with ackTime := a.entryTime } = some i
          rw [← hissue i hi]
      show ({ n with acknowledgement := some a
                     myIssue := n.myIssue.map fun i => { i with ackTime := a.entryTime }
                     state := { n.state with ackTime := a.entryTime } } : FullNode) = n
      rw [hmap, ← hstate, ← hack]

theorem Loadable.self (n : FullNode) : Loadable n n := ⟨.inr rfl, .inr rfl, .inr rfl⟩

end FullNode

/-! ## All nodes -/

variable {ids : List NodeId} {nodes : NodeId → FullNode} {x : NodeId}

/-- Events for other nodes leave a node alone. -/
theorem load_others {es : List Cached} (h : ∀ e ∈ es, e.id ≠ x) :
    loadCorrelation ids nodes es x = nodes x := by
  induction es generalizing nodes with
  | nil => rfl
  | cons e es ih =>
    show loadCorrelation ids (loadCorrelationEvent ids nodes e) es x = nodes x
    rw [ih fun e' he' => h e' (List.mem_cons_of_mem e he'), loadCorrelationEvent]
    split
    · exact Function.update_of_ne (Ne.symm (h e List.mem_cons_self)) _ _
    · rfl

/-- Those for a node that there is reach it one after the other. -/
theorem load_own {es : List Cached} (hx : x ∈ ids) (h : ∀ e ∈ es, e.id = x) :
    loadCorrelation ids nodes es x = es.foldl FullNode.load (nodes x) := by
  induction es generalizing nodes with
  | nil => rfl
  | cons e es ih =>
    have he := h e List.mem_cons_self
    show loadCorrelation ids (loadCorrelationEvent ids nodes e) es x = _
    rw [ih fun e' he' => h e' (List.mem_cons_of_mem e he'), loadCorrelationEvent, he, if_pos hx,
      Function.update_self]
    rfl

theorem load_append (as bs : List Cached) :
    loadCorrelation ids nodes (as ++ bs) = loadCorrelation ids (loadCorrelation ids nodes as) bs :=
  List.foldl_append

/-- What all nodes are saved as does to a node what it is saved as itself. -/
theorem load_saved {saved : NodeId → FullNode} (hsaved : ∀ y, (saved y).Sound y) {as : List NodeId}
    (hids : as.Nodup) (hsub : ∀ y ∈ as, y ∈ ids) (hx : x ∈ as) :
    loadCorrelation ids nodes (savePersistentCache as saved) x =
      (saved x).serialize.foldl FullNode.load (nodes x) := by
  obtain ⟨before, after, rfl⟩ := List.append_of_mem hx
  -- an id is in the list once, so the nodes before and after it have other events
  have hother : ∀ l : List NodeId, (∀ y ∈ l, y ≠ x) → ∀ e ∈ savePersistentCache l saved, e.id ≠ x := by
    intro l hl e he
    obtain ⟨y, hy, he⟩ := List.mem_flatMap.mp he
    rw [(hsaved y).id_serialize e he]
    exact hl y hy
  obtain ⟨-, hafter, hcross⟩ := List.nodup_append.mp hids
  have hsplit : savePersistentCache (before ++ x :: after) saved = savePersistentCache before saved ++
      ((saved x).serialize ++ savePersistentCache after saved) := by
    rw [savePersistentCache, List.flatMap_append, List.flatMap_cons]
    rfl
  rw [hsplit, load_append, load_append, load_others, load_own (hsub x hx) (hsaved x).id_serialize,
    load_others]
  · exact hother before fun y hy => hcross y hy x List.mem_cons_self
  · refine hother after ?_
    intro y hy heq
    rw [heq] at hy
    exact (List.nodup_cons.mp hafter).1 hy

namespace FullCorrelator

/-- **Nodes come back from the persistent cache, into new nodes and into themselves, exactly when the
times of acknowledgement are those of their acknowledgements**, whatever calls they got before. -/
theorem load_saved_iff (t : Topology) (stream : Bool) (startTime newStartTime : NodeId → Timestamp)
    (calls : List NodeCall) {ids : List NodeId} (hids : ids.Nodup) :
    ∃ s, (fresh startTime).run t stream calls = some s ∧ ∀ x ∈ ids,
      (loadCorrelation ids (fresh newStartTime).nodes (savePersistentCache ids s.nodes) x = s.nodes x ↔
        (s.nodes x).Stamped) ∧
      (loadCorrelation ids s.nodes (savePersistentCache ids s.nodes) x = s.nodes x ↔
        (s.nodes x).Stamped) := by
  obtain ⟨s, hrun, hsound⟩ := sound_run t stream (sound_fresh startTime) calls
  refine ⟨s, hrun, ?_⟩
  intro x hx
  rw [load_saved hsound hids (fun _ hy => hy) hx, load_saved hsound hids (fun _ hy => hy) hx,
    FullNode.load_serialize (hsound x) ⟨.inl rfl, .inl rfl, .inl rfl⟩,
    FullNode.load_serialize (hsound x) (.self _), FullNode.restamped_eq_iff (hsound x)]
  exact ⟨Iff.rfl, Iff.rfl⟩

/-- A host in a downtime, and a service of it with an acknowledgement. -/
def acknowledgedAndDown : List NodeCall :=
  [.status ⟨7, 0⟩ 1 10, .status ⟨7, 3⟩ 2 12, .downtime ⟨-1, 15, ⟨7, 0⟩, 4, 14⟩,
    .ack ⟨⟨false, 20⟩, -1, ⟨7, 3⟩⟩]

theorem load_saved_iff_one :
    ∃ s, (fresh fun _ => 0).run unlinked true acknowledgedAndDown = some s ∧
      ∀ x ∈ [(⟨7, 0⟩ : NodeId), ⟨7, 3⟩],
        (loadCorrelation [⟨7, 0⟩, ⟨7, 3⟩] (fresh fun _ => 50).nodes
          (savePersistentCache [⟨7, 0⟩, ⟨7, 3⟩] s.nodes) x = s.nodes x ↔ (s.nodes x).Stamped) ∧
        (loadCorrelation [⟨7, 0⟩, ⟨7, 3⟩] s.nodes
          (savePersistentCache [⟨7, 0⟩, ⟨7, 3⟩] s.nodes) x = s.nodes x ↔ (s.nodes x).Stamped) :=
  load_saved_iff unlinked true (fun _ => 0) (fun _ => 50) acknowledgedAndDown (by decide)

/-- A sticky acknowledgement comes before the change of status: its time replaces that of the change. -/
theorem not_load_saved : ¬ ∀ t stream startTime newStartTime calls ids, ids.Nodup →
    ∃ s, (fresh startTime).run t stream calls = some s ∧ ∀ x ∈ ids,
      loadCorrelation ids (fresh newStartTime).nodes (savePersistentCache ids s.nodes) x = s.nodes x := by
  intro h
  obtain ⟨s, hrun, hsame⟩ := h unlinked true (fun _ => 0) (fun _ => 0)
    [.status ⟨7, 0⟩ 1 10, .ack ⟨⟨true, 20⟩, -1, ⟨7, 0⟩⟩, .status ⟨7, 0⟩ 2 30] [⟨7, 0⟩]
    (List.nodup_singleton _)
  cases hrun
  have htime := congrArg (·.state.ackTime) (hsame ⟨7, 0⟩ (List.mem_singleton_self _))
  revert htime
  decide

end FullCorrelator

end CentreonBroker.Correlation
