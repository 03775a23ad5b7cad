import CentreonBroker.Correlation.Calls

/-!
# The timeline of a node

A transition closes a state and opens the next one at the same time. The states that a node writes
are a timeline without gaps, whatever calls it gets, and it has an issue and a downtime flag when it
should.
-/

namespace CentreonBroker.Correlation

/-- The states of the node `x` that were written. -/
def Event.stateOf (x : NodeId) : Event → Option State
  | .state st => if st.id = x then some st else none
  | _ => none

def statesOf (x : NodeId) (es : List Event) : List State := es.filterMap (Event.stateOf x)

/-- From a state that starts at the first time to one that starts at the last time: the current state
is written again, or it is closed, and the next one starts where it ends. -/
inductive Timeline : Timestamp → List State → Timestamp → Prop
  | nil {t} : Timeline t [] t
  | again {t u st rest} : st.startTime = t → st.endTime = -1 → Timeline t rest u →
      Timeline t (st :: rest) u
  | change {t u closing opening rest} : closing.startTime = t → opening.startTime = closing.endTime →
      opening.endTime = -1 → Timeline opening.startTime rest u →
      Timeline t (closing :: opening :: rest) u

theorem Timeline.append {t u v : Timestamp} {as bs : List State} (ha : Timeline t as u)
    (hb : Timeline u bs v) : Timeline t (as ++ bs) v := by
  induction ha with
  | nil => exact hb
  | again hstart hend _ ih => exact .again hstart hend (ih hb)
  | change hclosing hopening hend _ ih => exact .change hclosing hopening hend (ih hb)

/-! ## What is written -/

@[simp] theorem statesOf_append (x : NodeId) (as bs : List Event) :
    statesOf x (as ++ bs) = statesOf x as ++ statesOf x bs := List.filterMap_append

@[simp] theorem statesOf_nil (x : NodeId) : statesOf x [] = [] := rfl

@[simp] theorem statesOf_issue (x : NodeId) (i : Issue) (es : List Event) :
    statesOf x (.issue i :: es) = statesOf x es := rfl

theorem statesOf_state_self {x : NodeId} {st : State} (h : st.id = x) (es : List Event) :
    statesOf x (.state st :: es) = st :: statesOf x es :=
  List.filterMap_cons_some (if_pos h)

theorem statesOf_state_ne {x : NodeId} {st : State} (h : st.id ≠ x) (es : List Event) :
    statesOf x (.state st :: es) = statesOf x es :=
  List.filterMap_cons_none (if_neg h)

/-- A link writes no state. -/
theorem statesOf_linkedNodeUpdated (x : NodeId) (t : Topology) (nodes : NodeId → Node)
    (this n : NodeId) (startTime : Timestamp) (closed : Bool) (type : LinkType) :
    statesOf x (linkedNodeUpdated t nodes this n startTime closed type) = [] := by
  simp only [linkedNodeUpdated]
  repeat' split
  all_goals rfl

theorem statesOf_flatMap {α : Type} (x : NodeId) (as : List α) (f : α → List Event)
    (h : ∀ a, statesOf x (f a) = []) : statesOf x (as.flatMap f) = [] := by
  induction as with
  | nil => rfl
  | cons a as ih => rw [List.flatMap_cons, statesOf_append, h, ih, List.append_nil]

@[simp] theorem statesOf_visitLinkedNodes (x : NodeId) (t : Topology) (nodes : NodeId → Node)
    (y : NodeId) (time : Timestamp) (closed : Bool) :
    statesOf x (visitLinkedNodes t nodes y time closed) = [] := by
  rw [visitLinkedNodes, statesOf_append, statesOf_append, statesOf_append,
    statesOf_flatMap, statesOf_flatMap, statesOf_flatMap, statesOf_flatMap]
  · rfl
  all_goals exact fun _ => statesOf_linkedNodeUpdated ..

@[simp] theorem statesOf_visitParentOfChildNodes (x : NodeId) (t : Topology) (nodes : NodeId → Node)
    (y : NodeId) (time : Timestamp) (closed : Bool) :
    statesOf x (visitParentOfChildNodes t nodes y time closed) = [] := by
  refine statesOf_flatMap x _ _ fun c => statesOf_flatMap x _ _ fun p => ?_
  split
  · exact statesOf_linkedNodeUpdated ..
  · rfl

/-! ## Steps of a node -/

namespace FullNode

variable {n : FullNode} {x : NodeId}

/-- A step of the node `x`: it stays sound, and what it writes goes on with its timeline. -/
structure Step (x : NodeId) (n : FullNode) (es : List Event) (n' : FullNode) : Prop where
  sound : n'.Sound x
  timeline : Timeline n.state.startTime (statesOf x es) n'.state.startTime
  others : ∀ y, y ≠ x → statesOf y es = []

/-- The two states of a transition. -/
theorem states_generate (hid : n.state.id = x) (startTime : Timestamp) (newStatus : ℤ)
    (newInDowntime : Bool) :
    Timeline n.state.startTime
        (statesOf x (n.generateStateEvent startTime newStatus newInDowntime true).1) startTime ∧
      ∀ y, y ≠ x → statesOf y (n.generateStateEvent startTime newStatus newInDowntime true).1 = [] := by
  rw [generate_events]
  constructor
  · show Timeline n.state.startTime (statesOf x [_, _]) startTime
    rw [statesOf_state_self (by exact hid), statesOf_state_self (by exact hid)]
    exact .change rfl rfl rfl .nil
  · intro y hy
    have hne : n.state.id ≠ y := fun h => hy (h.symm.trans hid)
    show statesOf y [_, _] = []
    rw [statesOf_state_ne (by exact hne), statesOf_state_ne (by exact hne)]
    rfl

/-- A transition of a node with the same state. -/
theorem Step.generate {m : FullNode} (hstate : m.state = n.state) (hid : n.state.id = x)
    {startTime : Timestamp} {newStatus : ℤ} {newInDowntime : Bool}
    (hsound : (m.generateStateEvent startTime newStatus newInDowntime true).2.Sound x) :
    Step x n (m.generateStateEvent startTime newStatus newInDowntime true).1
      (m.generateStateEvent startTime newStatus newInDowntime true).2 := by
  rw [← hstate] at hid
  obtain ⟨htimeline, hothers⟩ := states_generate hid startTime newStatus newInDowntime
  refine ⟨hsound, ?_, hothers⟩
  rw [← hstate]
  exact htimeline

theorem Step.still {m : FullNode} (hsound : m.Sound x) (hstate : m.state = n.state) : Step x n [] m :=
  ⟨hsound, by rw [hstate]; exact .nil, fun _ _ => rfl⟩

/-- A status event writes its two states first, and no other state. -/
theorem step_changed (h : n.Sound x) {newState : ℤ} {time : Timestamp} {states : List Event}
    {m : FullNode} (hm : (n.removeAcknowledgement newState).generateStateEvent time newState
      n.state.inDowntime true = (states, m)) {myIssue : Option Issue}
    (hissueId : ∀ i, myIssue = some i → i.id = x) (hissue : myIssue.isSome = true ↔ newState ≠ 0)
    {rest : List Event} (hrest : ∀ y, statesOf y rest = []) :
    Step x n (states ++ rest) { m with myIssue := myIssue } := by
  have hstate := removeAcknowledgement_state n newState
  obtain ⟨htimeline, hothers⟩ := states_generate (n := n.removeAcknowledgement newState) (x := x)
    (by rw [hstate]; exact h.id_eq) time newState n.state.inDowntime
  have hsound := h.changed newState time true (m := m) (by rw [hm]) myIssue hissueId hissue
  have hstart : m.state.startTime = time := by
    have hgenerate := generate_startTime (n.removeAcknowledgement newState) time newState
      n.state.inDowntime true
    rw [hm] at hgenerate
    exact hgenerate
  rw [hm, hstate] at htimeline
  rw [hm] at hothers
  refine ⟨hsound, ?_, ?_⟩
  · rw [statesOf_append, hrest, List.append_nil]
    show Timeline _ _ m.state.startTime
    rw [hstart]
    exact htimeline
  · intro y hy
    rw [statesOf_append, hrest, hothers y hy, List.append_nil]

theorem step_manageAck (h : n.Sound x) {a : Ack} (ha : a.id = x) :
    Step x n (n.manageAck a true).1 (n.manageAck a true).2 := by
  have hsound := h.manageAck ha true
  unfold FullNode.manageAck at hsound ⊢
  split at hsound
  · rename_i hcreation
    rw [if_pos hcreation]
    -- the issue may be written, and then the state is written again
    have hissues : ∀ (y : NodeId) (i : Option Issue) (es : List Event),
        statesOf y (i.toList.map .issue ++ es) = statesOf y es := by
      intro y i es
      cases i <;> rfl
    refine ⟨hsound, ?_, ?_⟩
    · show Timeline _ (statesOf x (_ ++ [_])) _
      rw [hissues, statesOf_state_self (by exact h.id_eq)]
      exact .again rfl h.endTime_eq .nil
    · intro y hy
      show statesOf y (_ ++ [_]) = []
      rw [hissues, statesOf_state_ne (by exact fun heq => hy (heq.symm.trans h.id_eq))]
      rfl
  · rename_i hdeletion
    rw [if_neg hdeletion]
    exact .still hsound rfl

theorem step_manageDowntime (h : n.Sound x) {d : Downtime} (hd : d.id = x) :
    Step x n (n.manageDowntime d true).1 (n.manageDowntime d true).2 := by
  have hsound := h.manageDowntime hd true
  cases hstart : d.actualStartTime.isNull with
  | true =>
    rw [manageDowntime_ignored hstart]
    exact .still h rfl
  | false =>
    cases hend : d.actualEndTime.isNull with
    | true =>
      rw [manageDowntime_start hstart hend] at hsound ⊢
      split at hsound
      · rename_i hflag
        rw [if_pos hflag]
        exact .still hsound rfl
      · rename_i hflag
        rw [if_neg hflag]
        exact .generate (n := n) (m := { n with downtimes := n.downtimes.insert d }) rfl h.id_eq hsound
    | false =>
      rw [manageDowntime_end hstart hend] at hsound ⊢
      split at hsound
      · rename_i hempty
        rw [if_pos hempty]
        exact .generate (n := n) (m := { n with downtimes := n.downtimes.erase d.internalId }) rfl h.id_eq hsound
      · rename_i hleft
        rw [if_neg hleft]
        exact .still hsound rfl

end FullNode

/-! ## Steps of all nodes -/

namespace FullCorrelator

variable {t : Topology} {s : FullCorrelator}

/-- What a call keeps of all nodes, with what it writes. -/
structure Steps (s : FullCorrelator) (s' : FullCorrelator) : Prop where
  sound : ∀ x, (s'.nodes x).Sound x
  timeline : ∃ es, s'.stream = s.stream ++ es ∧
    ∀ x, Timeline (s.nodes x).state.startTime (statesOf x es) (s'.nodes x).state.startTime

theorem Steps.of_step (h : ∀ y, (s.nodes y).Sound y) {x : NodeId} {es : List Event} {n : FullNode}
    (hstep : FullNode.Step x (s.nodes x) es n) :
    Steps s ⟨Function.update s.nodes x n, s.stream ++ es⟩ := by
  refine ⟨?_, es, rfl, ?_⟩
  · intro y
    by_cases hy : y = x
    · subst hy
      simpa using hstep.sound
    · simpa [hy] using h y
  · intro y
    by_cases hy : y = x
    · subst hy
      simpa using hstep.timeline
    · simp only [Function.update_of_ne hy]
      rw [hstep.others y hy]
      exact .nil

/-- A call that looks at its node only. -/
theorem Steps.onNode (h : ∀ y, (s.nodes y).Sound y) {x : NodeId} {f : FullNode → List Event × FullNode}
    (hstep : FullNode.Step x (s.nodes x) (f (s.nodes x)).1 (f (s.nodes x)).2) :
    Steps s (s.onNode x f) := .of_step h hstep

/-- A status event finds the issue that it closes. It changes its node only, and writes no state but
the two of the transition. -/
theorem manageStatus_spec (h : ∀ y, (s.nodes y).Sound y) (x : NodeId) (newState : ℤ)
    (time : Timestamp) (stream : Bool) :
    ∃ s', s.manageStatus t x newState time stream = some s' ∧
      ((s.nodes x).state.currentState = newState → s' = s) ∧
      ((s.nodes x).state.currentState ≠ newState → ∃ states m myIssue rest,
        ((s.nodes x).removeAcknowledgement newState).generateStateEvent time newState
          (s.nodes x).state.inDowntime stream = (states, m) ∧
        s' = ⟨Function.update s.nodes x { m with myIssue := myIssue }, s.stream ++ (states ++ rest)⟩ ∧
        (∀ i, myIssue = some i → i.id = x) ∧ (myIssue.isSome = true ↔ newState ≠ 0) ∧
        ∀ y, statesOf y rest = []) := by
  have hx := h x
  unfold FullCorrelator.manageStatus
  by_cases hsame : (s.nodes x).state.currentState = newState
  · rw [if_pos hsame]
    exact ⟨s, rfl, fun _ => rfl, fun hne => absurd hsame hne⟩
  rw [if_neg hsame]
  simp only [FullNode.removeAcknowledgement_state]
  have hmyIssue : (((s.nodes x).removeAcknowledgement newState).generateStateEvent time newState
      (s.nodes x).state.inDowntime stream).2.myIssue = (s.nodes x).myIssue := by
    rw [FullNode.generate_myIssue, FullNode.removeAcknowledgement_myIssue]
  have hid : (((s.nodes x).removeAcknowledgement newState).generateStateEvent time newState
      (s.nodes x).state.inDowntime stream).2.state.id = x := by
    rw [FullNode.generate_id, FullNode.removeAcknowledgement_state]
    exact hx.id_eq
  generalize hm : ((s.nodes x).removeAcknowledgement newState).generateStateEvent time newState
    (s.nodes x).state.inDowntime stream = p at hmyIssue hid ⊢
  obtain ⟨states, m⟩ := p
  dsimp only at hmyIssue hid ⊢
  by_cases hnew : newState = 0
  · -- the recovery: its state was not 0, so it has an issue
    subst hnew
    obtain ⟨i, hi⟩ := Option.isSome_iff_exists.mp (hx.issue_iff.mpr hsame)
    rw [if_pos rfl, hmyIssue, hi]
    refine ⟨_, rfl, fun heq => absurd heq hsame, ?_⟩
    intro _
    rw [Function.update_idem, List.append_assoc]
    refine ⟨states, m, none, _, rfl, rfl, ?_, ?_, ?_⟩
    · intro i hi
      cases hi
    · simp
    · intro y
      cases stream <;> simp [written]
  · rw [if_neg hnew]
    by_cases hold : (s.nodes x).state.currentState = 0
    · rw [if_pos hold]
      refine ⟨_, rfl, fun heq => absurd heq hsame, ?_⟩
      intro _
      rw [List.append_assoc]
      refine ⟨states, m, some _, _, rfl, rfl, ?_, ?_, ?_⟩
      · intro i hi
        cases hi
        exact hid
      · simpa using hnew
      · intro y
        cases stream <;> simp [written]
    · rw [if_neg hold]
      refine ⟨_, rfl, fun heq => absurd heq hsame, fun _ =>
        ⟨states, m, (s.nodes x).myIssue, [], rfl, ?_, hx.issue_id,
          iff_of_true (hx.issue_iff.mpr hold) hnew, fun _ => rfl⟩⟩
      rw [List.append_nil, ← hmyIssue]

theorem steps_manageStatus (h : ∀ y, (s.nodes y).Sound y) (x : NodeId) (newState : ℤ)
    (time : Timestamp) : ∃ s', s.manageStatus t x newState time true = some s' ∧ Steps s s' := by
  obtain ⟨s', hs', hsame, hchange⟩ := manageStatus_spec (t := t) h x newState time true
  refine ⟨s', hs', ?_⟩
  by_cases heq : (s.nodes x).state.currentState = newState
  · rw [hsame heq]
    exact ⟨h, [], (List.append_nil _).symm, fun y => .nil⟩
  · obtain ⟨states, m, myIssue, rest, hm, rfl, hissueId, hissue, hrest⟩ := hchange heq
    exact .of_step h (FullNode.step_changed (h x) hm hissueId hissue hrest)

/-- **A call keeps the nodes sound, and goes on with their timelines.** -/
theorem steps_call (h : ∀ y, (s.nodes y).Sound y) (c : NodeCall) :
    ∃ s', s.call t true c = some s' ∧ Steps s s' := by
  cases c with
  | status x newState time => exact steps_manageStatus h x newState time
  | ack a => exact ⟨_, rfl, .onNode h (FullNode.step_manageAck (h a.id) rfl)⟩
  | downtime d => exact ⟨_, rfl, .onNode h (FullNode.step_manageDowntime (h d.id) rfl)⟩

theorem Steps.trans {s₁ s₂ s₃ : FullCorrelator} (h₁ : Steps s₁ s₂) (h₂ : Steps s₂ s₃) :
    Steps s₁ s₃ := by
  obtain ⟨-, es₁, hes₁, ht₁⟩ := h₁
  obtain ⟨hsound, es₂, hes₂, ht₂⟩ := h₂
  refine ⟨hsound, es₁ ++ es₂, ?_, ?_⟩
  · rw [hes₂, hes₁, List.append_assoc]
  · intro x
    rw [statesOf_append]
    exact (ht₁ x).append (ht₂ x)

theorem steps_run (h : ∀ y, (s.nodes y).Sound y) (calls : List NodeCall) :
    ∃ s', s.run t true calls = some s' ∧ Steps s s' := by
  induction calls generalizing s with
  | nil => exact ⟨s, rfl, h, [], (List.append_nil _).symm, fun y => .nil⟩
  | cons c calls ih =>
    obtain ⟨s₁, hcall, hsteps⟩ := steps_call (t := t) h c
    obtain ⟨s₂, hrun, hsteps'⟩ := ih hsteps.sound
    refine ⟨s₂, ?_, hsteps.trans hsteps'⟩
    rw [run, List.foldlM_cons, hcall]
    exact hrun

theorem sound_fresh (startTime : NodeId → Timestamp) (x : NodeId) :
    ((fresh startTime).nodes x).Sound x where
  id_eq := rfl
  issue_id i hi := by cases hi
  issue_iff := by simp [fresh]
  downtime_iff := by simp [fresh, Downtimes.empty]
  endTime_eq := rfl
  running d hd := by cases hd
  created a ha := by cases ha

/-- **Nodes that were just built follow their calls**: no call dereferences an issue that is null, a
node has an issue while its state is not 0 and is in downtime while a downtime runs, and what it has
written is a timeline from its first state to its current one. -/
theorem run_timeline (t : Topology) (startTime : NodeId → Timestamp) (calls : List NodeCall) :
    ∃ s, (fresh startTime).run t true calls = some s ∧ ∀ x,
      ((s.nodes x).myIssue.isSome = true ↔ (s.nodes x).state.currentState ≠ 0) ∧
      ((s.nodes x).state.inDowntime = true ↔ (s.nodes x).downtimes.list ≠ []) ∧
      Timeline (startTime x) (statesOf x s.stream) (s.nodes x).state.startTime := by
  obtain ⟨s, hrun, hsound, es, hes, htimeline⟩ := steps_run (t := t) (sound_fresh startTime) calls
  refine ⟨s, hrun, ?_⟩
  intro x
  refine ⟨(hsound x).issue_iff, (hsound x).downtime_iff, ?_⟩
  rw [hes]
  exact htimeline x

end FullCorrelator

end CentreonBroker.Correlation
