import CentreonBroker.Correlation.Timeline
import Mathlib.Data.List.Induction

/-!
# The life of an acknowledgement

An acknowledgement is removed by its deletion and by a recovery, and by any change of status when it
is not sticky. A downtime does not remove it, and the code tells it from a change of status by the
downtime flag, which changes. The end of a downtime that is not known does not change the flag when no
downtime runs.
-/

namespace CentreonBroker.Correlation

/-- What the calls on a node say of its acknowledgement. -/
structure Life where
  state : ℤ
  held : Option Ack

/-- The node `x` is created in the state 0, and without an acknowledgement. -/
def Life.start : Life := ⟨0, none⟩

/-- A change of status removes what is not sticky, and a recovery what is; the calls on acknowledgements
create and delete it, and those on downtimes have nothing to do with it. -/
def Life.call (x : NodeId) (l : Life) : NodeCall → Life
  | .status y newState _ =>
    if y = x ∧ l.state ≠ newState then
      ⟨newState, l.held.filter fun a => newState ≠ 0 && a.isSticky⟩
    else l
  | .ack a => if a.id = x then { l with held := if a.deletionTime.isNull then some a else none } else l
  | .downtime _ => l

def Life.after (x : NodeId) (calls : List NodeCall) : Life := calls.foldl (Life.call x) .start

/-- The end of a downtime, while none runs and the node has an acknowledgement that is not sticky. -/
def FullNode.Stray (x : NodeId) (n : FullNode) : NodeCall → Prop
  | .downtime d => d.id = x ∧ d.actualStartTime.isNull = false ∧ d.actualEndTime.isNull = false ∧
    n.state.inDowntime = false ∧ ∃ a, n.acknowledgement = some a ∧ a.isSticky = false
  | _ => False

def FullNode.life (n : FullNode) : Life := ⟨n.state.currentState, n.acknowledgement⟩

/-! ## Steps of a node -/

namespace FullNode

variable {n : FullNode} {x : NodeId}

theorem life_changed (newState : ℤ) (time : Timestamp) (stream : Bool) :
    ((n.removeAcknowledgement newState).generateStateEvent time newState n.state.inDowntime
      stream).2.life = ⟨newState, n.acknowledgement.filter fun a => newState ≠ 0 && a.isSticky⟩ := by
  unfold life
  rw [generate_currentState, generate_acknowledgement, removeAcknowledgement_state,
    removeAcknowledgement_eq]
  cases h : n.acknowledgement with
  | none => rfl
  | some a =>
    by_cases hnew : newState = 0 <;> cases hsticky : a.isSticky <;>
      simp [Option.filter, hsticky, hnew]

theorem life_manageAck (a : Ack) (stream : Bool) :
    (n.manageAck a stream).2.life =
      { n.life with held := if a.deletionTime.isNull then some a else none } := by
  unfold manageAck
  split <;> rfl

/-- A transition that changes the flag keeps the acknowledgement. -/
theorem life_flag {m : FullNode} {time : Timestamp} {flag stream : Bool} (h : m.state.inDowntime = !flag) :
    (m.generateStateEvent time m.state.currentState flag stream).2.life = m.life := by
  unfold life
  rw [generate_currentState, generate_acknowledgement, h]
  cases hack : m.acknowledgement with
  | none => rfl
  | some a => cases flag <;> simp [Option.filter]

/-- One that does not removes it, unless it is sticky. -/
theorem life_noFlag {m : FullNode} {flag : Bool} (time : Timestamp) (stream : Bool) (h : m.state.inDowntime = flag) :
    (m.generateStateEvent time m.state.currentState flag stream).2.life =
      ⟨m.state.currentState, m.acknowledgement.filter (·.isSticky)⟩ := by
  unfold life
  rw [generate_currentState, generate_acknowledgement, h]
  cases hack : m.acknowledgement with
  | none => rfl
  | some a => cases flag <;> simp [Option.filter]

/-- A downtime keeps the acknowledgement, unless its end is stray. -/
theorem life_manageDowntime (hsound : n.Sound x) {d : Downtime} (stream : Bool) :
    (¬ n.Stray d.id (.downtime d) → (n.manageDowntime d stream).2.life = n.life) ∧
      (n.Stray d.id (.downtime d) → (n.manageDowntime d stream).2.life = ⟨n.state.currentState, none⟩) := by
  cases hstart : d.actualStartTime.isNull with
  | true =>
    rw [manageDowntime_ignored hstart]
    refine ⟨fun _ => rfl, ?_⟩
    intro ⟨_, hstarted, _⟩
    rw [hstart] at hstarted
    cases hstarted
  | false =>
    cases hend : d.actualEndTime.isNull with
    | true =>
      rw [manageDowntime_start hstart hend]
      constructor
      · intro _
        split
        · rfl
        · rename_i hflag
          exact life_flag (m := { n with downtimes := n.downtimes.insert d })
            (Bool.eq_false_iff.mpr hflag)
      · intro ⟨_, _, hfinished, _⟩
        rw [hend] at hfinished
        cases hfinished
    | false =>
      rw [manageDowntime_end hstart hend]
      cases hflag : n.state.inDowntime with
      | true =>
        constructor
        · intro _
          split
          · exact life_flag (m := { n with downtimes := n.downtimes.erase d.internalId }) hflag
          · rfl
        · intro ⟨_, _, _, hnone, _⟩
          rw [hflag] at hnone
          cases hnone
      | false =>
        -- no downtime runs, so none is left
        have hnil : n.downtimes.list = [] := by
          by_contra hne
          have hrunning := hsound.downtime_iff.mpr hne
          rw [hflag] at hrunning
          cases hrunning
        have hempty : (n.downtimes.erase d.internalId).list.isEmpty = true := by
          show (n.downtimes.list.filter _).isEmpty = true
          rw [hnil]
          rfl
        have hlife := life_noFlag (m := { n with downtimes := n.downtimes.erase d.internalId })
          d.actualEndTime stream hflag
        rw [if_pos hempty]
        cases hack : n.acknowledgement with
        | none =>
          rw [show ({ n with downtimes := n.downtimes.erase d.internalId } : FullNode).acknowledgement =
            none from hack] at hlife
          refine ⟨fun _ => hlife.trans (by rw [life, hack]; rfl), ?_⟩
          intro ⟨_, _, _, _, a, ha, _⟩
          rw [hack] at ha
          cases ha
        | some a =>
          rw [show ({ n with downtimes := n.downtimes.erase d.internalId } : FullNode).acknowledgement =
            some a from hack] at hlife
          cases hsticky : a.isSticky with
          | true =>
            refine ⟨fun _ => hlife.trans (by simp [life, hack, Option.filter, hsticky]), ?_⟩
            intro ⟨_, _, _, _, a', ha', hnot⟩
            rw [hack] at ha'
            cases ha'
            rw [hsticky] at hnot
            cases hnot
          | false =>
            refine ⟨fun hnot => absurd ⟨rfl, hstart, hend, hflag, a, hack, hsticky⟩ hnot, fun _ => ?_⟩
            refine hlife.trans ?_
            simp [Option.filter, hsticky]

end FullNode

/-! ## Runs -/

namespace FullCorrelator

variable {t : Topology} {s s' : FullCorrelator} {stream : Bool}

/-- A call keeps the nodes sound, whatever the stream. -/
theorem sound_call (t : Topology) (stream : Bool) (h : ∀ y, (s.nodes y).Sound y) (c : NodeCall) :
    ∃ s', s.call t stream c = some s' ∧ ∀ y, (s'.nodes y).Sound y := by
  have hupdate : ∀ (x : NodeId) (n : FullNode), n.Sound x →
      ∀ y, (Function.update s.nodes x n y).Sound y := by
    intro x n hn y
    by_cases hy : y = x
    · subst hy
      simpa using hn
    · simpa [hy] using h y
  cases c with
  | ack a => exact ⟨_, rfl, hupdate a.id _ ((h a.id).manageAck rfl stream)⟩
  | downtime d => exact ⟨_, rfl, hupdate d.id _ ((h d.id).manageDowntime rfl stream)⟩
  | status x newState time =>
    obtain ⟨s', hs', hsame, hchange⟩ := manageStatus_spec (t := t) h x newState time stream
    refine ⟨s', hs', ?_⟩
    by_cases heq : (s.nodes x).state.currentState = newState
    · rw [hsame heq]
      exact h
    · obtain ⟨states, m, myIssue, rest, hm, rfl, hissueId, hissue, -⟩ := hchange heq
      exact hupdate x _ ((h x).changed newState time stream (by rw [hm]) myIssue hissueId hissue)

/-- **A call does to the acknowledgement of a node what it says, unless it is a stray end.** -/
theorem life_call (h : ∀ y, (s.nodes y).Sound y) {c : NodeCall} (hcall : s.call t stream c = some s')
    (x : NodeId) :
    (¬ (s.nodes x).Stray x c → (s'.nodes x).life = (s.nodes x).life.call x c) ∧
      ((s.nodes x).Stray x c → (s'.nodes x).life = ⟨(s.nodes x).state.currentState, none⟩) := by
  cases c with
  | ack a =>
    refine ⟨fun _ => ?_, fun hstray => hstray.elim⟩
    cases hcall
    by_cases hx : a.id = x
    · subst hx
      simp only [onNode, Function.update_self, Life.call]
      rw [if_pos trivial]
      exact FullNode.life_manageAck a stream
    · simp only [onNode, Function.update_of_ne (Ne.symm hx), Life.call]
      rw [if_neg hx]
  | downtime d =>
    cases hcall
    by_cases hx : d.id = x
    · subst hx
      obtain ⟨hkeeps, hstray⟩ := FullNode.life_manageDowntime (h d.id) (d := d) stream
      simp only [onNode, Function.update_self, Life.call]
      exact ⟨hkeeps, hstray⟩
    · simp only [onNode, Function.update_of_ne (Ne.symm hx), Life.call]
      exact ⟨fun _ => trivial, fun hs => absurd hs.1 hx⟩
  | status y newState time =>
    refine ⟨fun _ => ?_, fun hstray => hstray.elim⟩
    obtain ⟨s₁, hs₁, hsame, hchange⟩ := manageStatus_spec (t := t) h y newState time stream
    have hs' : s' = s₁ := Option.some.inj (hcall.symm.trans hs₁)
    subst hs'
    by_cases heq : (s.nodes y).state.currentState = newState
    · rw [hsame heq, Life.call, if_neg]
      intro ⟨hy, hne⟩
      subst hy
      exact hne heq
    · obtain ⟨states, m, myIssue, rest, hm, rfl, -⟩ := hchange heq
      by_cases hy : y = x
      · subst hy
        have hlife := FullNode.life_changed (n := s.nodes y) newState time stream
        rw [hm] at hlife
        rw [Life.call, if_pos ⟨rfl, heq⟩]
        simp only [Function.update_self]
        exact hlife
      · simp only [Function.update_of_ne (Ne.symm hy)]
        rw [Life.call, if_neg]
        intro ⟨hy', _⟩
        exact hy hy'

/-- The last call. -/
theorem run_concat {as : List NodeCall} {c : NodeCall} (h : s.run t stream as = some s') :
    s.run t stream (as ++ [c]) = s'.call t stream c := by
  rw [run, List.foldlM_append]
  show ((s.run t stream as).bind fun s => s.run t stream [c]) = _
  rw [h]
  show (s'.call t stream c).bind some = _
  cases s'.call t stream c <;> rfl

theorem sound_run (t : Topology) (stream : Bool) (h : ∀ y, (s.nodes y).Sound y)
    (calls : List NodeCall) :
    ∃ s', s.run t stream calls = some s' ∧ ∀ y, (s'.nodes y).Sound y := by
  induction calls using List.reverseRecOn with
  | nil => exact ⟨s, rfl, h⟩
  | append_singleton calls c ih =>
    obtain ⟨s₁, hrun, hsound⟩ := ih
    rw [run_concat hrun]
    exact sound_call t stream hsound c

theorem state_call (x : NodeId) {l l' : Life} (h : l.state = l'.state) (c : NodeCall) :
    (l.call x c).state = (l'.call x c).state := by
  cases c with
  | status y newState time =>
    rw [Life.call, Life.call, h]
    split
    · rfl
    · exact h
  | ack a =>
    rw [Life.call, Life.call]
    split <;> exact h
  | downtime d => exact h

/-- The state of a node is the one that its calls say. -/
theorem state_run (startTime : NodeId → Timestamp) (x : NodeId) {calls : List NodeCall}
    (h : (fresh startTime).run t stream calls = some s) :
    (Life.after x calls).state = (s.nodes x).state.currentState := by
  induction calls using List.reverseRecOn generalizing s with
  | nil =>
    cases h
    rfl
  | append_singleton calls c ih =>
    obtain ⟨s₁, hrun, hsound⟩ := sound_run t stream (sound_fresh startTime) calls
    rw [run_concat hrun] at h
    obtain ⟨hkeeps, hstray⟩ := life_call hsound h x
    rw [Life.after, List.foldl_append]
    show ((Life.after x calls).call x c).state = _
    by_cases hs : (s₁.nodes x).Stray x c
    · have hstate := congrArg Life.state (hstray hs)
      refine Eq.trans ?_ hstate.symm
      cases c with
      | downtime d => exact ih hrun
      | status y newState time => exact hs.elim
      | ack a => exact hs.elim
    · have hstate := congrArg Life.state (hkeeps hs)
      exact (state_call x (ih hrun) c).trans hstate.symm

/-- **The acknowledgement of a node is the one that its calls say, in each state of a run, exactly when
no end of a downtime comes while none runs and the acknowledgement is not sticky.** -/
theorem ack_life_iff (t : Topology) (stream : Bool) (startTime : NodeId → Timestamp) (x : NodeId)
    (calls : List NodeCall) :
    (∀ pre post s, calls = pre ++ post → (fresh startTime).run t stream pre = some s →
        (s.nodes x).acknowledgement = (Life.after x pre).held) ↔
      ∀ pre c post s, calls = pre ++ c :: post → (fresh startTime).run t stream pre = some s →
        ¬ (s.nodes x).Stray x c := by
  constructor
  · intro h pre c post s hsplit hrun hs
    obtain ⟨s', hrun', hsound⟩ := sound_run t stream (sound_fresh startTime) pre
    obtain rfl := Option.some.inj (hrun.symm.trans hrun')
    obtain ⟨s', hcall, -⟩ := sound_call t stream hsound c
    have hnone := congrArg Life.held ((life_call hsound hcall x).2 hs)
    have hafter := h (pre ++ [c]) post s' (by rw [hsplit, List.append_assoc]; rfl)
      (by rw [run_concat hrun, hcall])
    have hbefore := h pre (c :: post) s hsplit hrun
    cases c with
    | status y newState time => exact hs.elim
    | ack a => exact hs.elim
    | downtime d =>
      obtain ⟨-, -, -, -, a, hack, -⟩ := hs
      have hheld : (Life.after x (pre ++ [.downtime d])).held = (Life.after x pre).held := by
        rw [Life.after, List.foldl_append]
        rfl
      have hnone' : (s'.nodes x).acknowledgement = none := hnone
      rw [hheld, ← hbefore, hack, hnone'] at hafter
      cases hafter
  · intro h pre
    induction pre using List.reverseRecOn with
    | nil =>
      intro post s _ hrun
      cases hrun
      rfl
    | append_singleton pre c ih =>
      intro post s hsplit hrun
      rw [List.append_assoc] at hsplit
      obtain ⟨s₁, hrun₁, hsound⟩ := sound_run t stream (sound_fresh startTime) pre
      rw [run_concat hrun₁] at hrun
      have hlife := (life_call hsound hrun x).1 (h pre c post s₁ hsplit hrun₁)
      have hsame : (s₁.nodes x).life = Life.after x pre := by
        have hstate := state_run startTime x hrun₁
        have hheld := ih _ s₁ hsplit hrun₁
        rw [FullNode.life, hheld, ← hstate]
      rw [hsame] at hlife
      refine (congrArg Life.held hlife).trans ?_
      rw [Life.after, Life.after, List.foldl_append]
      rfl

/-- The end of a downtime that was never started removes an acknowledgement that is not sticky. -/
theorem not_ack_life : ¬ ∀ t stream startTime x calls pre post s, calls = pre ++ post →
    (fresh startTime).run t stream pre = some s →
      (s.nodes x).acknowledgement = (Life.after x pre).held := by
  intro h
  have hlast := h unlinked true (fun _ => 0) ⟨7, 0⟩ _
    [.status ⟨7, 0⟩ 1 10, .ack ⟨⟨false, 20⟩, -1, ⟨7, 0⟩⟩, .downtime ⟨30, 25, ⟨7, 0⟩, 4, 25⟩] [] _ rfl rfl
  cases hlast

end FullCorrelator

end CentreonBroker.Correlation
