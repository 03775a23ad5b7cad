import CentreonBroker.Bam.KpiService
import CentreonBroker.Bam.BaTotals

/-!
# What the KPI of a service gives its BA

The acknowledgements, the downtimes and the statuses of a service set one flag or state each, so
what a KPI gives depends on the last event of each kind. An acknowledgement that is over has a time
of deletion, which is -1 or 0 on one that is active: the flag compares it with -1 only, and the
other way around.

The totals of the BA are followed part by part: a part is one that an impact adds to.
-/

namespace CentreonBroker.Bam

open Ba

/-- A number of the totals that is a sum over the impacts. -/
structure Part where
  total : Totals → ℚ
  impact : ImpactValues → ℚ
  total_init : total .init = 0
  total_apply (c : Config) (d : Bool) (i : ImpactValues) (t : Totals) :
    total (t.apply c d i) = total t + impact i
  total_reset (c : Config) (t : Totals) : total (t.reset c) = total t

namespace Part

def acknowledgement : Part where
  total := Totals.acknowledgement
  impact := ImpactValues.acknowledgement
  total_init := rfl
  total_apply _ d i t := Totals.apply_acknowledgement d i t
  total_reset c t := by
    unfold Totals.reset
    cases c.state_source <;> rfl

def downtime : Part where
  total := Totals.downtime
  impact := ImpactValues.downtime
  total_init := rfl
  total_apply _ d i t := Totals.apply_downtime d i t
  total_reset c t := by
    unfold Totals.reset
    cases c.state_source <;> rfl

variable {K : Type} (p : Part)

theorem total_total (c : Config) (l : List (Sigma fun _ : K => ImpactInfo)) (t : Totals) :
    p.total (t.total ImpactInfo.hard_impact c l) =
      p.total t + (l.map fun e => p.impact e.2.hard_impact).sum := by
  induction l with
  | nil => simp [Totals.total]
  | cons e l ih =>
    show p.total ((t.total ImpactInfo.hard_impact c l).apply c e.2.in_downtime e.2.hard_impact) = _
    rw [total_apply, ih, List.map_cons, List.sum_cons]
    ring

variable [DecidableEq K]

/-- What the attached KPIs give, added up. -/
def given (w : World K) : ℚ := ∑ k ∈ w.attached, p.impact (w.report k).hard_impact

/-- The BA has what its KPIs give it. -/
def Follows (w : World K) : Prop := p.total w.ba.hard = p.given w

variable {p} {w : World K}

theorem follows_iff (ht : w.Tracked) : p.Follows w ↔
    p.total w.ba.hard = (w.ba.impacts.entries.map fun e => p.impact e.2.hard_impact).sum := by
  rw [Follows, given, World.sum_entries ht fun i => p.impact i.hard_impact]

/-- With `impact` as the source the totals are right whatever happens. -/
theorem follows_of_summed (ht : w.Tracked) (h : Summed w.ba) : p.Follows w := by
  rw [follows_iff ht, h.hard, total_total, total_init, zero_add]

/-- A call that takes no impact off keeps the part right. -/
theorem Follows.add (h : p.Follows w) (ht : w.Tracked) {op : BaOp K}
    (hoff : World.takesOff w op = false) : p.Follows (w.step op) := by
  rw [follows_iff ht] at h
  rw [follows_iff (ht.step op)]
  rcases World.step_cases ht op with ⟨-, hba, -⟩ | ⟨k, -, hk, hstep⟩ | ⟨k, old, i, rfl, hk, hold, -⟩ |
    ⟨k, i, rfl, hk, -⟩
  · rw [hba]
    exact h
  · have herase : (w.ba.impacts.erase k).entries = w.ba.impacts.entries :=
      List.kerase_of_notMem_keys hk
    rw [hstep]
    show p.total (Totals.apply _ _ _ w.ba.hard) =
      p.impact (w.report k).hard_impact + ((w.ba.impacts.erase k).entries.map _).sum
    rw [total_apply, herase, h, add_comm]
  · have htrue : World.takesOff w (.child_has_update k i) = true :=
      decide_eq_true ⟨World.mem_of_lookup hk, fun heq => hold ((ht k old hk).symm.trans heq)⟩
    rw [hoff] at htrue
    cases htrue
  · have htrue : World.takesOff w (.remove_impact k) = true := decide_eq_true (World.mem_of_lookup hk)
    rw [hoff] at htrue
    cases htrue

/-- One that takes an impact off, with another source, counts twice all that the part was. -/
theorem Follows.takeOff_iff (h : p.Follows w) (ht : w.Tracked)
    (hsource : w.ba.config.state_source ≠ .impact) {op : BaOp K} (hoff : World.takesOff w op = true) :
    p.Follows (w.step op) ↔ p.given w = 0 := by
  have hunapply : ∀ k i, p.total (unapply_impact k i w.ba).hard = p.given w +
      ((w.ba.impacts.erase k).entries.map fun e => p.impact e.2.hard_impact).sum := by
    intro k i
    rw [unapply_impact, if_neg hsource, Entries.filter_ne_eq_erase, applyAll_eq]
    show p.total ((w.ba.hard.reset w.ba.config).total _ _ _) = _
    rw [total_total, total_reset, h]
  rw [follows_iff (ht.step op)]
  rcases World.step_cases ht op with ⟨hnot, -, -⟩ | ⟨k, rfl, -, -⟩ | ⟨k, old, i, -, -, -, hstep⟩ |
    ⟨k, i, -, -, hstep⟩
  · rw [hoff] at hnot
    cases hnot
  · cases hoff
  · rw [hstep]
    show p.total (Totals.apply _ _ _ (unapply_impact k old w.ba).hard) =
      p.impact i.hard_impact + ((w.ba.impacts.erase k).entries.map _).sum ↔ _
    rw [total_apply, hunapply]
    constructor
    · intro heq
      linarith
    · intro hzero
      linarith
  · rw [hstep]
    show p.total (unapply_impact k i w.ba).hard = ((w.ba.impacts.erase k).entries.map _).sum ↔ _
    rw [hunapply]
    exact add_eq_right

end Part

/-- The KPI that a call is about. -/
def BaOp.kpi {K : Type} : BaOp K → K
  | .add_impact k | .child_has_update k _ | .remove_impact k => k

namespace World

variable {K : Type} [DecidableEq K] {w : World K}

/-- A KPI whose impact is known stays so while the calls are about others. -/
theorem lookup_step_of_ne (ht : w.Tracked) {op : BaOp K} {k : K} (hop : op.kpi ≠ k) :
    (w.step op).ba.impacts.lookup k = w.ba.impacts.lookup k := by
  rcases step_cases ht op with ⟨-, hba, -⟩ | ⟨k', rfl, -, h⟩ | ⟨k', old, i, rfl, -, -, h⟩ |
    ⟨k', i, rfl, -, h⟩
  · rw [hba]
  · rw [h]
    exact AList.lookup_insert_ne hop.symm
  · rw [h]
    exact AList.lookup_insert_ne hop.symm
  · rw [h]
    exact AList.lookup_erase_ne hop.symm

/-- What a KPI that is attached tells the BA is what the BA knows of it. -/
theorem lookup_child_has_update {k : K} {old : ImpactInfo}
    (hk : w.ba.impacts.lookup k = some old) (i : ImpactInfo) :
    (w.step (.child_has_update k i)).ba.impacts.lookup k = some i := by
  show ((w.ba.child_has_update k i).2).impacts.lookup k = some i
  by_cases hold : old = i
  · simp only [Ba.child_has_update, hk, hold, if_true]
  · simp only [Ba.child_has_update, hk, hold, if_false]
    exact AList.lookup_insert _

end World

end CentreonBroker.Bam

namespace CentreonBroker.Bam.Visit

open KpiService

/-! ## The last event of each kind -/

namespace ServiceEvent

variable (c : KpiConfig)

/-- The status that an event brings for the service of a KPI. -/
def status? (e : ServiceEvent) : Option ServiceStatus :=
  match e with
  | .service_status s _ => if e.about c then some s else none
  | _ => none

def acknowledgement? (e : ServiceEvent) : Option Acknowledgement :=
  match e with
  | .acknowledgement ack _ => if e.about c then some ack else none
  | _ => none

def downtime? (e : ServiceEvent) : Option ServiceDowntime :=
  match e with
  | .downtime dt _ => if e.about c then some dt else none
  | _ => none

end ServiceEvent

/-- The last of some kind. -/
def latest {α : Type} (kind : ServiceEvent → Option α) (events : List ServiceEvent) : Option α :=
  (events.filterMap kind).getLast?

theorem latest_concat {α : Type} (kind : ServiceEvent → Option α) (events : List ServiceEvent)
    (e : ServiceEvent) : latest kind (events ++ [e]) = (kind e).or (latest kind events) := by
  rw [latest, List.filterMap_append, List.getLast?_append, latest]
  cases h : kind e with
  | none => simp [h]
  | some a => simp [h]

/-- An acknowledgement that is not over. -/
def Acknowledgement.active (ack : Acknowledgement) : Bool := is_null ack.deletion_time

/-- A downtime that is started and not ended. -/
def running (dt : ServiceDowntime) : Bool := dt.was_started && is_null dt.actual_end_time

/-- A KPI, after some events, knows the last of each kind. -/
structure Knows (k₀ : KpiService) (events : List ServiceEvent) (k : KpiService) : Prop where
  config : k.config = k₀.config
  acknowledged : k.acknowledged =
    (latest (ServiceEvent.acknowledgement? k₀.config) events).elim k₀.acknowledged fun ack =>
      ack.deletion_time ≠ -1
  downtimed : k.downtimed =
    (latest (ServiceEvent.downtime? k₀.config) events).elim k₀.downtimed running
  state_hard : k.state_hard =
    (latest (ServiceEvent.status? k₀.config) events).elim k₀.state_hard ServiceStatus.last_hard_state
  state_soft : k.state_soft =
    (latest (ServiceEvent.status? k₀.config) events).elim k₀.state_soft ServiceStatus.current_state

theorem Knows.nil (k₀ : KpiService) : Knows k₀ [] k₀ := ⟨rfl, rfl, rfl, rfl, rfl⟩

theorem Knows.concat {k₀ k : KpiService} {events : List ServiceEvent} (h : Knows k₀ events k)
    (e : ServiceEvent) : Knows k₀ (events ++ [e]) (k.service_update e) := by
  have hsame := same_visit e.now (k.set e)
  unfold service_update
  rw [h.config]
  cases habout : e.about k₀.config with
  | false =>
    have hack : e.acknowledgement? k₀.config = none := by
      cases e <;> simp [ServiceEvent.acknowledgement?, habout]
    have hdt : e.downtime? k₀.config = none := by
      cases e <;> simp [ServiceEvent.downtime?, habout]
    have hstatus : e.status? k₀.config = none := by
      cases e <;> simp [ServiceEvent.status?, habout]
    constructor
    · exact h.config
    · rw [latest_concat, hack]
      exact h.acknowledged
    · rw [latest_concat, hdt]
      exact h.downtimed
    · rw [latest_concat, hstatus]
      exact h.state_hard
    · rw [latest_concat, hstatus]
      exact h.state_soft
  | true =>
    show Knows _ _ ((k.set e).visit e.now)
    cases e with
    | service_status s now =>
      have hstatus : (ServiceEvent.service_status s now).status? k₀.config = some s := if_pos habout
      constructor
      · exact hsame.config.trans h.config
      · rw [latest_concat]
        exact hsame.acknowledged.trans h.acknowledged
      · rw [latest_concat]
        exact hsame.downtimed.trans h.downtimed
      · rw [latest_concat, hstatus]
        exact hsame.state_hard
      · rw [latest_concat, hstatus]
        exact hsame.state_soft
    | acknowledgement ack now =>
      have hack : (ServiceEvent.acknowledgement ack now).acknowledgement? k₀.config = some ack :=
        if_pos habout
      constructor
      · exact hsame.config.trans h.config
      · rw [latest_concat, hack]
        exact hsame.acknowledged
      · rw [latest_concat]
        exact hsame.downtimed.trans h.downtimed
      · rw [latest_concat]
        exact hsame.state_hard.trans h.state_hard
      · rw [latest_concat]
        exact hsame.state_soft.trans h.state_soft
    | downtime dt now =>
      have hdt : (ServiceEvent.downtime dt now).downtime? k₀.config = some dt := if_pos habout
      constructor
      · exact hsame.config.trans h.config
      · rw [latest_concat]
        exact hsame.acknowledged.trans h.acknowledged
      · rw [latest_concat, hdt]
        exact hsame.downtimed
      · rw [latest_concat]
        exact hsame.state_hard.trans h.state_hard
      · rw [latest_concat]
        exact hsame.state_soft.trans h.state_soft

/-! ## The KPI and its BA -/

/-- The KPI of a service among the others of a BA. It is the one without a name. -/
structure ParentWorld (K : Type) where
  kpi : KpiService
  parent : World (Option K)

/-- What happens: something about a service, or a call about one of the other KPIs. -/
inductive ParentOp (K : Type) where
  | service (e : ServiceEvent)
  | other (op : BaOp K)

/-- A call about one of the other KPIs. -/
def others {K : Type} : BaOp K → BaOp (Option K)
  | .add_impact k => .add_impact (some k)
  | .child_has_update k i => .child_has_update (some k) i
  | .remove_impact k => .remove_impact (some k)

theorem others_kpi {K : Type} (op : BaOp K) : (others op).kpi ≠ none := by
  cases op <;> exact Option.some_ne_none _

namespace ParentWorld

variable {K : Type} [DecidableEq K]

/-- The call that the BA gets. The KPI propagates what it is told about its service. -/
def call (w : ParentWorld K) : ParentOp K → Option (BaOp (Option K))
  | .service e =>
    if e.about w.kpi.config then
      some (.child_has_update none ((w.kpi.service_update e).report e.now).info)
    else none
  | .other op => some (others op)

def step (w : ParentWorld K) (op : ParentOp K) : ParentWorld K where
  kpi :=
    match op with
    | .service e => w.kpi.service_update e
    | .other _ => w.kpi
  parent := (w.call op).elim w.parent w.parent.step

def run (w : ParentWorld K) (ops : List (ParentOp K)) : ParentWorld K := ops.foldl step w

/-- What a KPI answers to a BA, but for the time. -/
def info (k : KpiService) : ImpactInfo := (k.report 0).info

/-- What a KPI and the others answer. -/
def answers (k : KpiService) (report : K → ImpactInfo) (o : Option K) : ImpactInfo :=
  o.elim (info k) report

/-- A new BA that a KPI is attached to, among others that answer anything. -/
def start (k : KpiService) (c : Config) (report : K → ImpactInfo) : ParentWorld K where
  kpi := k
  parent := (World.start c (answers k report)).step (.add_impact none)

/-- What happened to services. -/
def serviceEvents (ops : List (ParentOp K)) : List ServiceEvent :=
  ops.filterMap fun
    | .service e => some e
    | .other _ => none

/-- The KPI knows the last events, and the BA knows the KPI. -/
structure Told (k₀ : KpiService) (c : Config) (ops : List (ParentOp K)) (w : ParentWorld K) : Prop where
  knows : Knows k₀ (serviceEvents ops) w.kpi
  tracked : w.parent.Tracked
  config : w.parent.ba.config = c
  impact : w.parent.ba.impacts.lookup none = some (info w.kpi)
  summed : c.state_source = .impact → Ba.Summed w.parent.ba

theorem told_start (k : KpiService) (c : Config) (report : K → ImpactInfo) :
    Told k c [] (start k c report) where
  knows := .nil k
  tracked := (World.Tracked.start c _).step _
  config := World.step_config (World.Tracked.start c _) _
  impact := AList.lookup_insert _
  summed hsource :=
    @World.Summed.step _ _ (World.start c (answers k report)) hsource (World.Tracked.start c _)
      (Ba.Summed.init c) (.add_impact none)

variable {ops : List (ParentOp K)} {w : ParentWorld K} {k₀ : KpiService}

theorem Told.step {c : Config}
    (h : Told k₀ c ops w) (op : ParentOp K) : Told k₀ c (ops ++ [op]) (w.step op) := by
  have hsource : c.state_source = .impact → w.parent.ba.config.state_source = .impact := by
    rw [h.config]
    exact id
  cases op with
  | service e =>
    have hknows : Knows k₀ (serviceEvents (ops ++ [.service e])) (w.kpi.service_update e) := by
      rw [serviceEvents, List.filterMap_append]
      exact h.knows.concat e
    cases habout : e.about w.kpi.config with
    | false =>
      -- nothing happens
      have hkpi : w.kpi.service_update e = w.kpi := by
        unfold service_update
        rw [habout]
        rfl
      have hcall : w.call (.service e) = none := by
        simp only [call, habout, Bool.false_eq_true, if_false]
      have hstep : w.step (.service e) = w := by
        show (⟨w.kpi.service_update e, _⟩ : ParentWorld K) = w
        rw [hcall, hkpi]
        rfl
      rw [hkpi] at hknows
      rw [hstep]
      exact ⟨hknows, h.tracked, h.config, h.impact, h.summed⟩
    | true =>
      have hcall : w.call (.service e) =
          some (.child_has_update none (info (w.kpi.service_update e))) := if_pos habout
      have hstep : w.step (.service e) = ⟨w.kpi.service_update e,
          w.parent.step (.child_has_update none (info (w.kpi.service_update e)))⟩ := by
        show (⟨w.kpi.service_update e, _⟩ : ParentWorld K) = _
        rw [hcall]
        rfl
      rw [hstep]
      refine ⟨hknows, h.tracked.step _, ?_, World.lookup_child_has_update h.impact _, ?_⟩
      · exact (World.step_config h.tracked _).trans h.config
      · intro himpact
        exact World.Summed.step (hsource himpact) h.tracked (h.summed himpact) _
  | other op =>
    refine ⟨?_, h.tracked.step _, ?_, ?_, ?_⟩
    · rw [serviceEvents, List.filterMap_append]
      show Knows k₀ (serviceEvents ops ++ []) w.kpi
      rw [List.append_nil]
      exact h.knows
    · exact (World.step_config h.tracked _).trans h.config
    · exact (World.lookup_step_of_ne h.tracked (others_kpi op)).trans h.impact
    · intro himpact
      exact World.Summed.step (hsource himpact) h.tracked (h.summed himpact) _

theorem run_concat (w : ParentWorld K) (ops : List (ParentOp K)) (op : ParentOp K) :
    w.run (ops ++ [op]) = (w.run ops).step op := List.foldl_concat _ _ _ _

theorem told_run (k : KpiService) (c : Config) (report : K → ImpactInfo) (ops : List (ParentOp K)) :
    Told k c ops ((start k c report).run ops) := by
  induction ops using List.reverseRecOn with
  | nil => exact told_start k c report
  | append_singleton ops op ih =>
    rw [run_concat]
    exact ih.step op

/-! ### What the flags are to be -/

/-- An impact that has the parts of some flags, in some state. -/
structure Shows (c : KpiConfig) (acknowledged downtimed : Bool) (s : State) (i : ImpactValues) :
    Prop where
  acknowledgement : i.acknowledgement = if acknowledged then i.nominal else 0
  downtime : i.downtime = if downtimed then i.nominal else 0
  nominal : i.nominal = c.impacts s
  state : i.state = s

theorem shows_fillImpact_iff {c : KpiConfig} {acknowledged acknowledged' downtimed : Bool} {s : State} :
    Shows c acknowledged downtimed s (fillImpact c acknowledged' downtimed s) ↔
      acknowledged' = acknowledged ∨ c.impacts s = 0 := by
  constructor
  · intro h
    have hack := h.acknowledgement
    revert hack
    cases acknowledged <;> cases acknowledged' <;> simp [fillImpact, eq_comm]
  · intro h
    refine ⟨?_, rfl, rfl, rfl⟩
    rcases h with rfl | hzero
    · rfl
    · simp [fillImpact, hzero]

/-- The service is acknowledged: the last acknowledgement is active. A KPI starts with what its
configuration knows. -/
def acknowledgedAfter (k₀ : KpiService) (events : List ServiceEvent) : Bool :=
  (latest (ServiceEvent.acknowledgement? k₀.config) events).elim k₀.acknowledged Acknowledgement.active

/-- The service is in downtime: the last one is started and not ended. -/
def downtimedAfter (k₀ : KpiService) (events : List ServiceEvent) : Bool :=
  (latest (ServiceEvent.downtime? k₀.config) events).elim k₀.downtimed running

def hardAfter (k₀ : KpiService) (events : List ServiceEvent) : State :=
  (latest (ServiceEvent.status? k₀.config) events).elim k₀.state_hard ServiceStatus.last_hard_state

def softAfter (k₀ : KpiService) (events : List ServiceEvent) : State :=
  (latest (ServiceEvent.status? k₀.config) events).elim k₀.state_soft ServiceStatus.current_state

/-- The impacts of a KPI follow its service, those are the ones that the BA has of it, and the levels
of the BA follow those of its KPIs. -/
structure Right (k₀ : KpiService) (events : List ServiceEvent) (w : ParentWorld K) : Prop where
  hard : Shows k₀.config (acknowledgedAfter k₀ events) (downtimedAfter k₀ events) (hardAfter k₀ events)
    w.kpi.impact_hard
  soft : Shows k₀.config (acknowledgedAfter k₀ events) (downtimedAfter k₀ events) (softAfter k₀ events)
    w.kpi.impact_soft
  given : w.parent.ba.impacts.lookup none = some ⟨w.kpi.impact_hard, w.kpi.impact_soft, w.kpi.downtimed⟩
  acknowledgement : Part.acknowledgement.Follows w.parent
  downtime : Part.downtime.Follows w.parent

/-- The last acknowledgement is one that the flag is right about, or no impact depends on it. -/
def AckHarmless (k₀ : KpiService) (events : List ServiceEvent) : Prop :=
  (∀ ack ∈ latest (ServiceEvent.acknowledgement? k₀.config) events, ack.deletion_time = 0) ∨
    k₀.config.impacts (hardAfter k₀ events) = 0 ∧ k₀.config.impacts (softAfter k₀ events) = 0

/-- The call takes nothing off a BA that has another source than impacts, or the KPIs have neither
acknowledgements nor downtimes. -/
def TakeOffHarmless (c : Config) (w : ParentWorld K) (op : ParentOp K) : Prop :=
  ∀ b ∈ w.call op, c.state_source ≠ .impact → World.takesOff w.parent b = true →
    Part.acknowledgement.given w.parent = 0 ∧ Part.downtime.given w.parent = 0

/-- The flag of an acknowledgement is right when there is none or it has the time 0. -/
theorem flag_iff (k₀ : KpiService) (events : List ServiceEvent) :
    ((latest (ServiceEvent.acknowledgement? k₀.config) events).elim k₀.acknowledged
      (fun ack => decide (ack.deletion_time ≠ -1))) = acknowledgedAfter k₀ events ↔
    ∀ ack ∈ latest (ServiceEvent.acknowledgement? k₀.config) events, ack.deletion_time = 0 := by
  unfold acknowledgedAfter
  cases latest (ServiceEvent.acknowledgement? k₀.config) events with
  | none => simp
  | some ack =>
    simp only [Option.elim_some, Option.mem_some_iff, forall_eq', Acknowledgement.active, is_null]
    rcases eq_or_ne ack.deletion_time (-1) with h | h
    · simp [h]
    · simp [h]

theorem shows_iff {c : Config}
    (h : Told k₀ c ops w) :
    Shows k₀.config (acknowledgedAfter k₀ (serviceEvents ops)) (downtimedAfter k₀ (serviceEvents ops))
        (hardAfter k₀ (serviceEvents ops)) w.kpi.impact_hard ∧
      Shows k₀.config (acknowledgedAfter k₀ (serviceEvents ops)) (downtimedAfter k₀ (serviceEvents ops))
        (softAfter k₀ (serviceEvents ops)) w.kpi.impact_soft ↔
    AckHarmless k₀ (serviceEvents ops) := by
  have hk := h.knows
  unfold KpiService.impact_hard KpiService.impact_soft
  rw [hk.config, hk.downtimed, hk.state_hard, hk.state_soft, hk.acknowledged]
  show Shows _ _ _ _ (fillImpact _ _ (downtimedAfter k₀ _) (hardAfter k₀ _)) ∧
    Shows _ _ _ _ (fillImpact _ _ (downtimedAfter k₀ _) (softAfter k₀ _)) ↔ _
  rw [shows_fillImpact_iff, shows_fillImpact_iff, flag_iff, AckHarmless]
  tauto

theorem follows_step_iff {c : Config}
    (h : Told k₀ c ops w) (op : ParentOp K) (hack : Part.acknowledgement.Follows w.parent)
    (hdt : Part.downtime.Follows w.parent) :
    Part.acknowledgement.Follows (w.step op).parent ∧ Part.downtime.Follows (w.step op).parent ↔
      TakeOffHarmless c w op := by
  unfold TakeOffHarmless
  cases hcall : w.call op with
  | none =>
    have hparent : (w.step op).parent = w.parent := by
      show (w.call op).elim _ _ = _
      rw [hcall]
      rfl
    rw [hparent]
    simp [hack, hdt]
  | some b =>
    have hparent : (w.step op).parent = w.parent.step b := by
      show (w.call op).elim _ _ = _
      rw [hcall]
      rfl
    rw [hparent]
    simp only [Option.mem_some_iff, forall_eq']
    by_cases hsource : c.state_source = .impact
    · have hsummed : Ba.Summed (w.parent.step b).ba :=
        World.Summed.step (by rw [h.config, hsource]) h.tracked (h.summed hsource) b
      have ht := h.tracked.step b
      simp [hsource, Part.follows_of_summed ht hsummed]
    · have hsource' : w.parent.ba.config.state_source ≠ .impact := by
        rw [h.config]
        exact hsource
      cases hoff : World.takesOff w.parent b with
      | false => simp [hack.add h.tracked hoff, hdt.add h.tracked hoff]
      | true =>
        rw [hack.takeOff_iff h.tracked hsource' hoff, hdt.takeOff_iff h.tracked hsource' hoff]
        simp [hsource]

/-- The first KPI is added to totals of 0. -/
theorem follows_start (p : Part) (k : KpiService) (c : Config) (report : K → ImpactInfo) :
    p.Follows (start k c report).parent := by
  have ht := World.Tracked.start c (answers k report)
  have hempty : p.Follows (World.start c (answers k report)) := by
    rw [Part.follows_iff ht]
    exact p.total_init
  exact hempty.add ht rfl

/-- A KPI and its BA are right after each event. -/
def AlwaysRight (k₀ : KpiService) (c : Config) (report : K → ImpactInfo) (ops : List (ParentOp K)) :
    Prop :=
  ∀ pre, pre <+: ops → Right k₀ (serviceEvents pre) ((start k₀ c report).run pre)

/--
**The flags of a KPI follow its service** exactly as long as each acknowledgement has the time of
deletion 0 while there is an impact, and no impact of the BA is counted twice. Numbers are exact, as
in `accumulates_iff`.
-/
theorem flags_iff (kpi : KpiConfig) (acknowledged downtimed : Bool) (status : State) (state_type : ℤ)
    (c : Config) (report : K → ImpactInfo) (ops : List (ParentOp K)) :
    AlwaysRight (init kpi acknowledged downtimed status state_type) c report ops ↔
      (∀ pre, pre <+: ops →
        AckHarmless (init kpi acknowledged downtimed status state_type) (serviceEvents pre)) ∧
      ∀ pre op, pre ++ [op] <+: ops →
        TakeOffHarmless c
          ((start (init kpi acknowledged downtimed status state_type) c report).run pre) op := by
  generalize init kpi acknowledged downtimed status state_type = k₀
  have htold := told_run k₀ c report
  constructor
  · intro h
    refine ⟨fun pre hpre => (shows_iff (htold pre)).mp ⟨(h pre hpre).hard, (h pre hpre).soft⟩, ?_⟩
    intro pre op hpre
    have hbefore := h pre ((List.prefix_append _ _).trans hpre)
    have hafter := h _ hpre
    rw [run_concat] at hafter
    exact (follows_step_iff (htold pre) op hbefore.acknowledgement hbefore.downtime).mp
      ⟨hafter.acknowledgement, hafter.downtime⟩
  · intro ⟨hack, hoff⟩ pre hpre
    obtain ⟨hhard, hsoft⟩ := (shows_iff (htold pre)).mpr (hack pre hpre)
    have hfollows : Part.acknowledgement.Follows ((start k₀ c report).run pre).parent ∧
        Part.downtime.Follows ((start k₀ c report).run pre).parent := by
      clear hhard hsoft
      induction pre using List.reverseRecOn with
      | nil => exact ⟨follows_start _ k₀ c report, follows_start _ k₀ c report⟩
      | append_singleton pre op ih =>
        obtain ⟨ha, hd⟩ := ih ((List.prefix_append _ _).trans hpre)
        rw [run_concat]
        exact (follows_step_iff (htold pre) op ha hd).mpr (hoff pre op hpre)
    exact ⟨hhard, hsoft, (htold pre).impact, hfollows.1, hfollows.2⟩

/-- A service is critical, and then acknowledged: the KPI is not. -/
theorem not_alwaysRight : ¬ ∀ (kpi : KpiConfig) (c : Config) (report : Unit → ImpactInfo)
    (ops : List (ParentOp Unit)), AlwaysRight (init kpi false false .ok 1) c report ops := by
  intro h
  have hright := h ⟨1, 1, 1, 1, 0, 10, 0⟩ ⟨.impact, .dt_ignore, 0, 0, true⟩
    (fun _ => ⟨⟨0, 0, 0, .ok⟩, ⟨0, 0, 0, .ok⟩, false⟩)
    [.service (.service_status ⟨1, 1, 100, 100, "", "", .critical, .critical, 1⟩ 100),
      .service (.acknowledgement ⟨1, 1, -1⟩ 110)] _ (List.prefix_refl _)
  have hack := hright.hard.acknowledgement
  revert hack
  decide +kernel

end ParentWorld

end CentreonBroker.Bam.Visit
