import CentreonBroker.Bam.BaTotals
import CentreonBroker.Bam.BaVisit

/-!
# Inherited downtimes

A BA may take over the downtime of its KPIs: when it is not OK, and every KPI that is not OK is in
downtime. It looks for that when a KPI has changed, but not when one comes or goes; and when it
gives the downtime up, it stays in downtime itself.

So what it says is right as long as only a changed KPI makes the BA inherit a downtime, and nothing
makes it lose one.
-/

namespace CentreonBroker.Bam.Visit

/-- The inherited downtimes among what a BA wrote. -/
def downtimes (out : List BaOutput) : List Bool :=
  out.filterMap fun
    | .inherited_downtime _ in_downtime => some in_downtime
    | _ => none

theorem downtimes_append (out out' : List BaOutput) :
    downtimes (out ++ out') = downtimes out ++ downtimes out' := List.filterMap_append

theorem downtimes_map (l : List BaEvent) : downtimes (l.map .ba_event) = [] := by
  unfold downtimes
  rw [List.filterMap_map]
  exact List.filterMap_none _

/-- Each change of a flag that starts as `false`, and what it is at the end. -/
inductive Changes : List Bool → Bool → Prop where
  | nil : Changes [] false
  | change {l : List Bool} {b : Bool} (h : Changes l b) : Changes (l ++ [!b]) (!b)

namespace LiveBa

variable {K : Type}

/-- The BA is to be in an inherited downtime. -/
def Inherits (fl : ℚ → ℚ) (report : K → KpiReport) (b : LiveBa K) : Prop :=
  b.get_state_hard fl report ≠ .ok ∧ b.ba.impacts.keys ≠ [] ∧
    ∀ k ∈ b.ba.impacts.keys, (report k).ok_state = true ∨ (report k).info.in_downtime = true

instance (fl : ℚ → ℚ) (report : K → KpiReport) (b : LiveBa K) : Decidable (Inherits fl report b) :=
  inferInstanceAs (Decidable (_ ∧ _ ∧ _))

theorem inherits_iff (fl : ℚ → ℚ) (report : K → KpiReport) (b : LiveBa K) :
    Inherits fl report b ↔ b.get_state_hard fl report ≠ .ok ∧ b.everyInDowntime report = true := by
  unfold Inherits everyInDowntime
  simp [List.all_eq_true]

variable {b' : LiveBa K}

/-- It is about the totals of the BA, and what its KPIs answer. -/
theorem inherits_congr (fl : ℚ → ℚ) (report : K → KpiReport) {b : LiveBa K} (h : b.ba = b'.ba) :
    Inherits fl report b ↔ Inherits fl report b' := by
  unfold Inherits get_state_hard
  rw [h]

/-- The flag is exact, each of its changes was written once, and the BA and its event follow it. -/
structure Exact (fl : ℚ → ℚ) (report : K → KpiReport) (b : LiveBa K) : Prop where
  flag : b.inherited_downtime = true ↔ Inherits fl report b
  written : Changes (downtimes b.out) b.inherited_downtime
  in_downtime : b.in_downtime = b.inherited_downtime
  event : ∀ e, b.event = some e → e.in_downtime = b.inherited_downtime

/-- What holds in any case, as long as the service of the BA has no downtime of its own. -/
structure Noted (b : LiveBa K) : Prop where
  /-- Each change of the flag was written once. -/
  written : Changes (downtimes b.out) b.inherited_downtime
  /-- The event of the BA has its downtime flag. -/
  event : ∀ e, b.event = some e → e.in_downtime = b.in_downtime
  initial : b.initial_events = []

theorem Noted.noted_exact_iff {fl : ℚ → ℚ} {report : K → KpiReport} {b : LiveBa K} (h : Noted b) :
    Exact fl report b ↔ (b.inherited_downtime = true ↔ Inherits fl report b) ∧
      b.in_downtime = b.inherited_downtime := by
  constructor
  · intro he
    exact ⟨he.flag, he.in_downtime⟩
  · intro ⟨hflag, hdowntime⟩
    refine ⟨hflag, h.written, hdowntime, ?_⟩
    intro e he
    rw [h.event e he, hdowntime]

theorem Noted.init (c : Config) (id host_id service_id : ℕ) (generate_virtual_status : Bool) :
    Noted (init c id host_id service_id generate_virtual_status : LiveBa K) where
  written := .nil
  event := by
    intro e he
    cases he
  initial := rfl

/-! ## One call -/

variable {fl : ℚ → ℚ} {report : K → KpiReport} {b : LiveBa K}

/-- A change of the totals, or of the time of the last KPI update. -/
theorem Noted.frame (h : Noted b) (hout : downtimes b'.out = downtimes b.out)
    (hevent : ∀ e, b'.event = some e → b.event = some e ∨ e.in_downtime = b.in_downtime)
    (hdowntime : b'.in_downtime = b.in_downtime)
    (hinherited : b'.inherited_downtime = b.inherited_downtime) (hinitial : b'.initial_events = []) :
    Noted b' where
  written := by
    rw [hout, hinherited]
    exact h.written
  event := by
    intro e he
    rw [hdowntime]
    rcases hevent e he with hold | hnew
    · exact h.event e hold
    · exact hnew
  initial := hinitial

theorem raise_frame (r : KpiReport) (b : LiveBa K) :
    (b.raise r).ba = b.ba ∧ (b.raise r).event = b.event ∧ (b.raise r).in_downtime = b.in_downtime ∧
      (b.raise r).inherited_downtime = b.inherited_downtime ∧ (b.raise r).out = b.out ∧
      (b.raise r).initial_events = b.initial_events := by
  unfold raise
  split <;> exact ⟨rfl, rfl, rfl, rfl, rfl, rfl⟩

/-- The part of a BA that a visit leaves as it is. -/
structure SameFlags (b b' : LiveBa K) : Prop where
  ba : b'.ba = b.ba
  in_downtime : b'.in_downtime = b.in_downtime
  inherited : b'.inherited_downtime = b.inherited_downtime
  initial : b'.initial_events = b.initial_events
  written : downtimes b'.out = downtimes b.out

theorem SameFlags.trans {b b'' : LiveBa K} (h : SameFlags b b') (h' : SameFlags b' b'') :
    SameFlags b b'' :=
  ⟨h'.ba.trans h.ba, h'.in_downtime.trans h.in_downtime, h'.inherited.trans h.inherited,
    h'.initial.trans h.initial, h'.written.trans h.written⟩

theorem sameFlags_write (b : LiveBa K) {o : BaOutput} (ho : downtimes [o] = []) :
    SameFlags b (b.write o) :=
  ⟨rfl, rfl, rfl, rfl, by rw [write, downtimes_append, ho, List.append_nil]⟩

theorem sameFlags_writeStatus (hard_state : State) (state_changed : Bool) (now : ℤ) (b : LiveBa K) :
    SameFlags b (b.writeStatus hard_state state_changed now) := by
  have hstatus := sameFlags_write b (o := .ba_status (b.status hard_state state_changed)) rfl
  unfold writeStatus
  dsimp only
  split
  · exact hstatus.trans (sameFlags_write _ rfl)
  · exact hstatus

theorem writeStatus_event (hard_state : State) (state_changed : Bool) (now : ℤ) (b : LiveBa K) :
    (b.writeStatus hard_state state_changed now).event = b.event := by
  unfold writeStatus
  dsimp only
  split <;> rfl

theorem visitEvent_spec (hard_state : State) (now : ℤ) (b : LiveBa K) :
    SameFlags b (b.visitEvent hard_state now) ∧
      ∀ e, (b.visitEvent hard_state now).event = some e → e.in_downtime = b.in_downtime := by
  have hopen : ∀ b' : LiveBa K, SameFlags b b' →
      SameFlags b (b'.open_new_event hard_state) ∧
        ∀ e, (b'.open_new_event hard_state).event = some e → e.in_downtime = b.in_downtime := by
    intro b' h
    refine ⟨⟨h.ba, h.in_downtime, h.inherited, h.initial, ?_⟩, ?_⟩
    · show downtimes (b'.out ++ [_]) = _
      rw [downtimes_append, h.written]
      exact List.append_nil _
    · intro e he
      cases he
      exact h.in_downtime
  unfold visitEvent
  split
  · exact hopen _ ⟨rfl, rfl, rfl, rfl, rfl⟩
  · rename_i e he
    split
    · exact hopen _ (sameFlags_write b rfl)
    · rename_i hsame
      refine ⟨⟨rfl, rfl, rfl, rfl, rfl⟩, ?_⟩
      intro e' he'
      rw [he] at he'
      cases he'
      by_contra hne
      exact hsame (.inl (Ne.symm hne))

/-- The flag is what it is to be once it was looked for. -/
theorem compute_spec [DecidableEq K] (hconfig : b.ba.config.dt_behaviour = .dt_inherit) :
    (b.compute_inherited_downtime fl report).ba = b.ba ∧
      (b.compute_inherited_downtime fl report).event = b.event ∧
      (b.compute_inherited_downtime fl report).initial_events = b.initial_events ∧
      ((b.compute_inherited_downtime fl report).inherited_downtime = true ↔ Inherits fl report b) ∧
      (b.compute_inherited_downtime fl report).in_downtime =
        (b.in_downtime || (!b.inherited_downtime &&
          (b.compute_inherited_downtime fl report).inherited_downtime)) ∧
      (Changes (downtimes b.out) b.inherited_downtime →
        Changes (downtimes (b.compute_inherited_downtime fl report).out)
          (b.compute_inherited_downtime fl report).inherited_downtime) := by
  have hinherits : Inherits fl report b ↔
      (!decide (b.get_state_hard fl report = .ok) && b.everyInDowntime report) = true := by
    rw [inherits_iff]
    simp
  have hgives_up : (decide (b.get_state_hard fl report = .ok) || !b.everyInDowntime report) =
      !(!decide (b.get_state_hard fl report = .ok) && b.everyInDowntime report) := by
    cases decide (b.get_state_hard fl report = .ok) <;> cases b.everyInDowntime report <;> rfl
  rw [hinherits]
  unfold compute_inherited_downtime
  rw [if_neg (by rw [hconfig]; decide)]
  dsimp only
  rw [hgives_up]
  have hsnoc : ∀ flag, Changes (downtimes b.out) (!flag) →
      Changes (downtimes (b.out ++ [.inherited_downtime b.id flag])) flag := by
    intro flag h
    rw [downtimes_append]
    have hnext := h.change
    rw [Bool.not_not] at hnext
    exact hnext
  cases !decide (b.get_state_hard fl report = .ok) && b.everyInDowntime report <;>
    cases hflag : b.inherited_downtime
  · -- nothing to inherit, and nothing inherited
    exact ⟨rfl, rfl, rfl, by simp [hflag], by simp [hflag], by simp [hflag]⟩
  · exact ⟨rfl, rfl, rfl, by simp [write], by simp [write], hsnoc false⟩
  · exact ⟨rfl, rfl, rfl, by simp [write], by simp [write], hsnoc true⟩
  · exact ⟨rfl, rfl, rfl, by simp [hflag], by simp [hflag], by simp [hflag]⟩

/-- A visit, whatever the event was before it. -/
theorem noted_visit [DecidableEq K] (hwritten : Changes (downtimes b.out) b.inherited_downtime)
    (hinitial : b.initial_events = []) (now : ℤ) :
    Noted (b.visit fl report now) ∧ SameFlags b (b.visit fl report now) := by
  have hcommit : SameFlags b b.commit_initial_events := by
    refine ⟨rfl, rfl, rfl, hinitial.symm, ?_⟩
    show downtimes (b.out ++ b.initial_events.map .ba_event) = _
    rw [downtimes_append, downtimes_map, List.append_nil]
  obtain ⟨hevent, hdowntime⟩ := visitEvent_spec
    (b.commit_initial_events.get_state_hard fl report) now b.commit_initial_events
  have hsame : SameFlags b (b.visit fl report now) :=
    (hcommit.trans hevent).trans (sameFlags_writeStatus _ _ now _)
  refine ⟨⟨?_, ?_, hsame.initial.trans hinitial⟩, hsame⟩
  · rw [hsame.written, hsame.inherited]
    exact hwritten
  · intro e he
    rw [hsame.in_downtime]
    exact hdowntime e ((writeStatus_event _ _ now _).symm.trans he)

theorem add_impact_config [DecidableEq K] (k : K) (i : ImpactInfo) (b : Ba K) :
    (b.add_impact k i).config = b.config := by
  unfold Ba.add_impact
  split <;> rfl

theorem child_has_update_config [DecidableEq K] (k : K) (i : ImpactInfo) (b : Ba K) :
    (b.child_has_update k i).2.config = b.config := by
  unfold Ba.child_has_update
  split
  · rfl
  · rename_i old hold
    split
    · rfl
    · exact (Ba.unapply_impact_frame k old b).1

theorem remove_impact_config [DecidableEq K] (k : K) (b : Ba K) :
    (b.remove_impact k).config = b.config := by
  unfold Ba.remove_impact
  split
  · rfl
  · rename_i i hi
    exact (Ba.unapply_impact_frame k i b).1

/-- A KPI that has changed. -/
theorem Noted.child_has_update [DecidableEq K] (hconfig : b.ba.config.dt_behaviour = .dt_inherit)
    (h : Noted b) {k : K} (now : ℤ) (hchanges : b.changes k (report k) = true) :
    Noted (b.child_has_update fl report k now) ∧
      ((b.child_has_update fl report k now).inherited_downtime = true ↔
        Inherits fl report (b.child_has_update fl report k now)) ∧
      (b.child_has_update fl report k now).in_downtime =
        (b.in_downtime || (!b.inherited_downtime &&
          (b.child_has_update fl report k now).inherited_downtime)) ∧
      (b.child_has_update fl report k now).ba.config = b.ba.config := by
  unfold LiveBa.child_has_update
  rw [if_pos hchanges]
  dsimp only
  obtain ⟨hba, hevent, hdowntime, hinherited, hout, hinitial⟩ := raise_frame (report k) b
  generalize hr : b.raise (report k) = r at hba hevent hdowntime hinherited hout hinitial
  let c : LiveBa K := { r with ba := (r.ba.child_has_update k (report k).info).2 }
  have hframe : c.ba.config = b.ba.config := by
    show (r.ba.child_has_update k (report k).info).2.config = _
    rw [child_has_update_config, hba]
  have hc : c.ba.config.dt_behaviour = .dt_inherit := by rw [hframe, hconfig]
  obtain ⟨hcba, hcevent, hcinitial, hcflag, hcdowntime, hcwritten⟩ :=
    @compute_spec K fl report c _ hc
  have hwritten : Changes (downtimes c.out) c.inherited_downtime := by
    show Changes (downtimes r.out) r.inherited_downtime
    rw [hout, hinherited]
    exact h.written
  obtain ⟨hnoted, hsame⟩ := @noted_visit K fl report (c.compute_inherited_downtime fl report) _
    (hcwritten hwritten) (hcinitial.trans (hinitial.trans h.initial)) now
  refine ⟨hnoted, ?_, ?_, ?_⟩
  · rw [hsame.inherited, inherits_congr fl report (hsame.ba.trans hcba)]
    exact hcflag
  · rw [hsame.in_downtime, hsame.inherited, hcdowntime]
    show (r.in_downtime || (!r.inherited_downtime && _)) = _
    rw [hdowntime, hinherited]
  · rw [hsame.ba, hcba, hframe]

end LiveBa

namespace LiveWorld

variable {K : Type} [DecidableEq K]

/-- The calls that are about the KPIs, and the visits. -/
def ofKpis : LiveOp K → Bool
  | .add_impact _ | .child_has_update _ _ _ | .remove_impact _ | .visit _ => true
  | .service_update _ _ | .set_initial_event _ _ => false

/-- A KPI has changed, so that the BA looks at all of them. -/
def looks (w : LiveWorld K) : LiveOp K → Bool
  | .child_has_update k r _ => w.live.changes k r
  | _ => false

def Inherits (fl : ℚ → ℚ) (w : LiveWorld K) : Prop := LiveBa.Inherits fl w.report w.live

instance (fl : ℚ → ℚ) (w : LiveWorld K) : Decidable (Inherits fl w) :=
  inferInstanceAs (Decidable (LiveBa.Inherits fl w.report w.live))

/-- A call does not make the BA lose an inherited downtime, and if it makes it inherit one then it is
that of a KPI that has changed. -/
structure Allowed (fl : ℚ → ℚ) (w : LiveWorld K) (op : LiveOp K) : Prop where
  kept : Inherits fl w → Inherits fl (w.step fl op)
  begun : Inherits fl (w.step fl op) → Inherits fl w ∨ looks w op = true

variable {fl : ℚ → ℚ} {w : LiveWorld K} {op : LiveOp K}

/-- A call that does not look at the KPIs leaves the flags. -/
theorem step_of_not_looks (hop : ofKpis op = true)
    (hlooks : looks w op = false) (h : w.live.Noted) :
    (w.step fl op).live.Noted ∧
      (w.step fl op).live.inherited_downtime = w.live.inherited_downtime ∧
      (w.step fl op).live.in_downtime = w.live.in_downtime ∧
      (w.step fl op).live.ba.config = w.live.ba.config := by
  cases op with
  | add_impact k =>
    show (w.live.add_impact k (w.report k)).Noted ∧ _
    simp only [step, LiveBa.add_impact]
    split
    · exact ⟨h, rfl, rfl, rfl⟩
    · obtain ⟨hba, hevent, hdowntime, hinherited, hout, hinitial⟩ := LiveBa.raise_frame (w.report k)
        { w.live with ba := w.live.ba.add_impact k (w.report k).info }
      refine ⟨h.frame (by rw [hout]) ?_ hdowntime hinherited (hinitial.trans h.initial), hinherited,
        hdowntime, ?_⟩
      · intro e he
        rw [hevent] at he
        exact .inl he
      · rw [hba]
        exact LiveBa.add_impact_config _ _ _
  | child_has_update k r now =>
    have hsame : Function.update w.report k r k = r := Function.update_self _ _ _
    simp only [looks] at hlooks
    have hstay : (w.step fl (.child_has_update k r now)).live = w.live := by
      show w.live.child_has_update fl (Function.update w.report k r) k now = w.live
      rw [LiveBa.child_has_update, hsame, hlooks]
      rfl
    rw [hstay]
    exact ⟨h, rfl, rfl, rfl⟩
  | remove_impact k =>
    exact ⟨h.frame rfl (fun e he => .inl he) rfl rfl h.initial, rfl, rfl,
      LiveBa.remove_impact_config k w.live.ba⟩
  | visit now =>
    obtain ⟨hnoted, hsame⟩ := @LiveBa.noted_visit K fl w.report w.live _ h.written h.initial now
    exact ⟨hnoted, hsame.inherited, hsame.in_downtime, by
      show (w.live.visit fl w.report now).ba.config = _
      rw [hsame.ba]⟩
  | service_update dt now => cases hop
  | set_initial_event e he => cases hop

/-- One call of a BA whose flags were exact before it. -/
theorem exact_step (hop : ofKpis op = true)
    (hconfig : w.live.ba.config.dt_behaviour = .dt_inherit) (h : w.live.Noted)
    (hexact : w.live.Exact fl w.report) :
    (w.step fl op).live.Exact fl (w.step fl op).report ↔ Allowed fl w op := by
  have hinherits : w.live.inherited_downtime = true ↔ Inherits fl w := hexact.flag
  cases hlooks : looks w op with
  | false =>
    obtain ⟨hnoted, hinherited, hdowntime, -⟩ := @step_of_not_looks _ _ fl _ _ hop hlooks h
    rw [hnoted.noted_exact_iff, hinherited, hdowntime, hinherits, and_iff_left hexact.in_downtime]
    constructor
    · intro heq
      exact ⟨heq.mp, fun hafter => .inl (heq.mpr hafter)⟩
    · intro hallowed
      refine ⟨hallowed.kept, ?_⟩
      intro hafter
      rcases hallowed.begun hafter with hbefore | hlook
      · exact hbefore
      · rw [hlooks] at hlook
        cases hlook
  | true =>
    cases op with
    | child_has_update k r now =>
      obtain ⟨hnoted, hflag, hdowntime, -⟩ := @LiveBa.Noted.child_has_update K fl
        (Function.update w.report k r) w.live _ hconfig h k now
        (by rw [Function.update_self]; exact hlooks)
      have hflag : (w.step fl (.child_has_update k r now)).live.inherited_downtime = true ↔
          Inherits fl (w.step fl (.child_has_update k r now)) := hflag
      have hdowntime : (w.step fl (.child_has_update k r now)).live.in_downtime =
          (w.live.inherited_downtime || (!w.live.inherited_downtime &&
            (w.step fl (.child_has_update k r now)).live.inherited_downtime)) := by
        rw [← hexact.in_downtime] at hdowntime ⊢
        exact hdowntime
      have hexact' : (w.step fl (.child_has_update k r now)).live.Exact fl
          (w.step fl (.child_has_update k r now)).report ↔
            (w.live.inherited_downtime = true →
              (w.step fl (.child_has_update k r now)).live.inherited_downtime = true) := by
        have hnoted : (w.step fl (.child_has_update k r now)).live.Noted := hnoted
        rw [hnoted.noted_exact_iff, hdowntime]
        refine (and_iff_right hflag).trans ?_
        cases w.live.inherited_downtime <;>
          cases (w.step fl (.child_has_update k r now)).live.inherited_downtime <;> decide
      rw [hexact', hinherits, hflag]
      constructor
      · intro hkept
        exact ⟨hkept, fun _ => .inr hlooks⟩
      · intro hallowed
        exact hallowed.kept
    | add_impact k => cases hlooks
    | remove_impact k => cases hlooks
    | visit now => cases hlooks
    | service_update dt now => cases hlooks
    | set_initial_event e he => cases hlooks

theorem noted_step (hop : ofKpis op = true)
    (hconfig : w.live.ba.config.dt_behaviour = .dt_inherit) (h : w.live.Noted) :
    (w.step fl op).live.Noted ∧
      (w.step fl op).live.ba.config.dt_behaviour = .dt_inherit := by
  cases hlooks : looks w op with
  | false =>
    obtain ⟨hnoted, -, -, hframe⟩ := @step_of_not_looks _ _ fl _ _ hop hlooks h
    exact ⟨hnoted, by rw [hframe, hconfig]⟩
  | true =>
    cases op with
    | child_has_update k r now =>
      obtain ⟨hnoted, -, -, hframe⟩ := @LiveBa.Noted.child_has_update K fl
        (Function.update w.report k r) w.live _ hconfig h k now
        (by rw [Function.update_self]; exact hlooks)
      refine ⟨hnoted, ?_⟩
      show (w.live.child_has_update fl (Function.update w.report k r) k now).ba.config.dt_behaviour = _
      rw [hframe, hconfig]
    | add_impact k => cases hlooks
    | remove_impact k => cases hlooks
    | visit now => cases hlooks
    | service_update dt now => cases hlooks
    | set_initial_event e he => cases hlooks

/-- A new BA that inherits downtimes, among KPIs. -/
def start (state_source : StateSource) (level_critical level_warning : ℚ) (valid : Bool)
    (id host_id service_id : ℕ) (generate_virtual_status : Bool) (report : K → KpiReport) :
    LiveWorld K :=
  ⟨report, .init ⟨state_source, .dt_inherit, level_critical, level_warning, valid⟩ id host_id
    service_id generate_virtual_status⟩

omit [DecidableEq K] in
theorem exact_start (fl : ℚ → ℚ) (state_source : StateSource) (level_critical level_warning : ℚ)
    (valid : Bool) (id host_id service_id : ℕ) (generate_virtual_status : Bool)
    (report : K → KpiReport) :
    (start state_source level_critical level_warning valid id host_id service_id
      generate_virtual_status report).live.Exact fl report := by
  refine ⟨?_, .nil, rfl, ?_⟩
  · refine iff_of_false (fun h => by cases h) ?_
    rintro ⟨-, hkeys, -⟩
    exact hkeys rfl
  · intro e he
    cases he

theorem run_concat (fl : ℚ → ℚ) (w : LiveWorld K) (ops : List (LiveOp K)) (op : LiveOp K) :
    w.run fl (ops ++ [op]) = (w.run fl ops).step fl op := List.foldl_concat _ _ _ _

theorem noted_run {ops : List (LiveOp K)}
    (hops : ∀ op ∈ ops, ofKpis op = true) (hconfig : w.live.ba.config.dt_behaviour = .dt_inherit)
    (h : w.live.Noted) : (w.run fl ops).live.Noted ∧
      (w.run fl ops).live.ba.config.dt_behaviour = .dt_inherit := by
  induction ops generalizing w with
  | nil => exact ⟨h, hconfig⟩
  | cons op ops ih =>
    obtain ⟨hnoted, hconfig'⟩ := @noted_step K _ fl w op (hops op List.mem_cons_self) hconfig h
    exact ih (fun op hop => hops op (List.mem_cons_of_mem _ hop)) hconfig' hnoted

/--
**The inherited downtime of a BA.** After every call the flag is right, was written and is followed,
exactly when each call is one that is allowed.
-/
theorem inherited_iff (fl : ℚ → ℚ) (state_source : StateSource) (level_critical level_warning : ℚ)
    (valid : Bool) (id host_id service_id : ℕ) (generate_virtual_status : Bool)
    (report : K → KpiReport) {ops : List (LiveOp K)} (hops : ∀ op ∈ ops, ofKpis op = true) :
    let w := start state_source level_critical level_warning valid id host_id service_id
      generate_virtual_status report
    (∀ pre, pre <+: ops → (w.run fl pre).live.Exact fl (w.run fl pre).report) ↔
      ∀ pre op, pre ++ [op] <+: ops → Allowed fl (w.run fl pre) op := by
  intro w
  have hrun : ∀ pre, pre <+: ops → (w.run fl pre).live.Noted ∧
      (w.run fl pre).live.ba.config.dt_behaviour = .dt_inherit := by
    intro pre hpre
    refine noted_run (fun op hop => hops op (hpre.subset hop)) rfl ?_
    exact LiveBa.Noted.init _ id host_id service_id generate_virtual_status
  have hstep : ∀ pre op, pre ++ [op] <+: ops →
      (w.run fl pre).live.Exact fl (w.run fl pre).report →
        ((w.run fl (pre ++ [op])).live.Exact fl (w.run fl (pre ++ [op])).report ↔
          Allowed fl (w.run fl pre) op) := by
    intro pre op hpre hexact
    obtain ⟨hnoted, hconfig⟩ := hrun pre ((List.prefix_append _ _).trans hpre)
    rw [run_concat]
    exact exact_step (hops op (hpre.subset (List.mem_append_right _ List.mem_cons_self))) hconfig
      hnoted hexact
  constructor
  · intro h pre op hpre
    exact (hstep pre op hpre (h pre ((List.prefix_append _ _).trans hpre))).mp (h _ hpre)
  · intro h pre hpre
    induction pre using List.reverseRecOn with
    | nil => exact exact_start fl _ _ _ _ _ _ _ _ report
    | append_singleton pre op ih =>
      have hbefore := ih ((List.prefix_append _ _).trans hpre)
      exact (hstep pre op hpre hbefore).mpr (h pre op hpre)

/-- A critical KPI. -/
def critical (in_downtime : Bool) : KpiReport :=
  ⟨⟨⟨0, 0, 0, .critical⟩, ⟨0, 0, 0, .critical⟩, in_downtime⟩, 10⟩

/-- A KPI that is OK. -/
def fine : KpiReport := ⟨⟨⟨0, 0, 0, .ok⟩, ⟨0, 0, 0, .ok⟩, false⟩, 10⟩

/-- A KPI becomes critical in its downtime. -/
def fails : List (LiveOp Unit) := [.add_impact (), .child_has_update () (critical true) 20]

/-- It is then in downtime, and so is its BA. -/
theorem inherited_iff_fails :
    ((start .worst 0 0 true 1 1 1 false fun _ => fine).run id fails).live.in_downtime = true := by
  have hallowed : ∀ pre op, pre ++ [op] <+: fails →
      Allowed id ((start .worst 0 0 true 1 1 1 false fun _ => fine).run id pre) op := by
    intro pre op hpre
    rcases pre with _ | ⟨x, _ | ⟨y, pre⟩⟩
    · obtain ⟨rfl, -⟩ := List.cons_prefix_cons.mp hpre
      exact ⟨by decide +kernel, by decide +kernel⟩
    · obtain ⟨rfl, hrest⟩ := List.cons_prefix_cons.mp hpre
      obtain ⟨rfl, -⟩ := List.cons_prefix_cons.mp hrest
      exact ⟨by decide +kernel, fun _ => .inr (by decide +kernel)⟩
    · obtain ⟨-, hrest⟩ := List.cons_prefix_cons.mp hpre
      obtain ⟨-, hrest⟩ := List.cons_prefix_cons.mp hrest
      simp at hrest
  have hexact := (@inherited_iff Unit _ id .worst 0 0 true 1 1 1 false (fun _ => fine) fails
    (by decide)).mpr hallowed fails (List.prefix_refl _)
  rw [hexact.in_downtime, hexact.flag]
  decide +kernel

/-- A BA whose KPI leaves its downtime stays in downtime. -/
theorem not_inherited :
    ¬ ∀ ops : List (LiveOp Unit), (∀ op ∈ ops, ofKpis op = true) → ∀ pre, pre <+: ops →
      ((start .worst 0 0 true 1 1 1 false fun _ => fine).run id pre).live.Exact id
        ((start .worst 0 0 true 1 1 1 false fun _ => fine).run id pre).report := by
  intro h
  have hexact := h (fails ++ [.child_has_update () (critical false) 30]) (by decide) _
    (List.prefix_refl _)
  have hdowntime := hexact.in_downtime
  revert hdowntime
  decide +kernel

end LiveWorld

end CentreonBroker.Bam.Visit
