import CentreonBroker.Bam.BaVisit

/-!
# KPIs of services

A KPI of a service follows the statuses, the acknowledgements and the downtimes of the service. What
it answers to its BA depends on the last of each of them. Like a BA it writes the event that its
state is in: that event has the time of the last check, and another one is opened only at a later
check.
-/

namespace CentreonBroker.Bam.Visit

/-- The members of `kpi_service` that its configuration sets. -/
structure KpiConfig where
  id : ℕ
  ba_id : ℕ
  host_id : ℕ
  service_id : ℕ
  impact_warning : ℚ
  impact_critical : ℚ
  impact_unknown : ℚ

/-- `neb::service_status`, as far as a KPI reads it. -/
structure ServiceStatus where
  host_id : ℕ
  service_id : ℕ
  last_check : ℤ
  last_update : ℤ
  output : String
  perf_data : String
  last_hard_state : State
  current_state : State
  state_type : ℤ

/-- `neb::acknowledgement`, as far as a KPI reads it. -/
structure Acknowledgement where
  host_id : ℕ
  service_id : ℕ
  deletion_time : ℤ

/-- `kpi_event`. The impact is an `int`. -/
structure KpiEvent where
  ba_id : ℕ
  end_time : ℤ
  impact_level : ℤ
  in_downtime : Bool
  kpi_id : ℕ
  output : String
  perfdata : String
  start_time : ℤ
  status : State
  deriving DecidableEq

/-- What the constructor of `kpi_event` sets. -/
def KpiEvent.init : KpiEvent := ⟨0, -1, 0, false, 0, "", "", -1, .unknown⟩

/-- `kpi_status`. -/
structure KpiStatus where
  kpi_id : ℕ
  in_downtime : Bool
  level_acknowledgement_hard : ℚ
  level_acknowledgement_soft : ℚ
  level_downtime_hard : ℚ
  level_downtime_soft : ℚ
  level_nominal_hard : ℚ
  level_nominal_soft : ℚ
  state_hard : State
  state_soft : State
  last_state_change : ℤ
  last_impact : ℚ

inductive KpiOutput where
  | kpi_event (e : KpiEvent)
  | kpi_status (s : KpiStatus)

/-- `kpi_service`. -/
structure KpiService where
  config : KpiConfig
  acknowledged : Bool
  downtimed : Bool
  last_check : ℤ
  output : String
  perfdata : String
  state_hard : State
  state_soft : State
  state_type : ℤ
  event : Option KpiEvent
  initial_events : List KpiEvent
  /-- All that the visitor was given. -/
  out : List KpiOutput

/-- `_impacts`, whose first and last entries no setter changes. -/
def KpiConfig.impacts (c : KpiConfig) : State → ℚ
  | .ok | .pending => 0
  | .warning => c.impact_warning
  | .critical => c.impact_critical
  | .unknown => c.impact_unknown

/-- `_fill_impact`. The states of a service are those that `_impacts` has an entry for. -/
def fillImpact (c : KpiConfig) (acknowledged downtimed : Bool) (state : State) : ImpactValues where
  acknowledgement := if acknowledged then c.impacts state else 0
  downtime := if downtimed then c.impacts state else 0
  nominal := c.impacts state
  state := state

namespace KpiService

/-- A new KPI, once it is configured: what is known of the service comes with the configuration. -/
def init (c : KpiConfig) (acknowledged downtimed : Bool) (status : State) (state_type : ℤ) : KpiService where
  config := c
  acknowledged := acknowledged
  downtimed := downtimed
  last_check := 0
  output := ""
  perfdata := ""
  state_hard := status
  state_soft := .ok
  state_type := state_type
  event := none
  initial_events := []
  out := []

def impact_hard (k : KpiService) : ImpactValues :=
  fillImpact k.config k.acknowledged k.downtimed k.state_hard

def impact_soft (k : KpiService) : ImpactValues :=
  fillImpact k.config k.acknowledged k.downtimed k.state_soft

/-- `get_last_state_change`. -/
def get_last_state_change (now : ℤ) (k : KpiService) : ℤ :=
  match k.event with
  | some e => e.start_time
  | none => now

/-- What it answers to a BA. -/
def report (now : ℤ) (k : KpiService) : KpiReport :=
  ⟨⟨k.impact_hard, k.impact_soft, k.downtimed⟩, k.get_last_state_change now⟩

def write (o : KpiOutput) (k : KpiService) : KpiService := { k with out := k.out ++ [o] }

/-- `_open_new_event`. The downtime flag that it reads for the impact is the one of a new event. -/
def open_new_event (impacts : ImpactValues) (k : KpiService) : KpiService :=
  let e : KpiEvent := .init
  let e := { e with kpi_id := k.config.id, ba_id := k.config.ba_id }
  let e := { e with impact_level := toInt (if e.in_downtime then impacts.downtime else impacts.nominal) }
  let e :=
    { e with
      in_downtime := k.downtimed
      output := k.output
      perfdata := k.perfdata
      start_time := k.last_check
      status := k.state_hard }
  write (.kpi_event e) { k with event := some e }

/-- `commit_initial_events`. -/
def commit_initial_events (k : KpiService) : KpiService :=
  { k with out := k.out ++ k.initial_events.map .kpi_event, initial_events := [] }

/-- The events of a visit. -/
def visitEvent (k : KpiService) : KpiService :=
  match k.event with
  | none => if is_null k.last_check then k else k.open_new_event k.impact_hard
  | some e =>
    if e.start_time < k.last_check ∧ (k.downtimed ≠ e.in_downtime ∨ k.state_hard ≠ e.status) then
      (k.write (.kpi_event { e with end_time := k.last_check })).open_new_event k.impact_hard
    else k

/-- The status of a visit. -/
def status (now : ℤ) (k : KpiService) : KpiStatus where
  kpi_id := k.config.id
  in_downtime := k.downtimed
  level_acknowledgement_hard := k.impact_hard.acknowledgement
  level_acknowledgement_soft := k.impact_soft.acknowledgement
  level_downtime_hard := k.impact_hard.downtime
  level_downtime_soft := k.impact_soft.downtime
  level_nominal_hard := k.impact_hard.nominal
  level_nominal_soft := k.impact_soft.nominal
  state_hard := k.state_hard
  state_soft := k.state_soft
  last_state_change := k.get_last_state_change now
  last_impact := if k.downtimed then k.impact_hard.downtime else k.impact_hard.nominal

/-- `visit`. -/
def visit (now : ℤ) (k : KpiService) : KpiService :=
  let k := k.commit_initial_events.visitEvent
  k.write (.kpi_status (k.status now))

/-- What `service_update` takes from a status. -/
def setStatus (s : ServiceStatus) (k : KpiService) : KpiService :=
  { k with
    last_check :=
      if is_null s.last_check then (if is_null k.last_check then s.last_update else k.last_check)
      else s.last_check
    output := s.output
    perfdata := s.perf_data
    state_hard := s.last_hard_state
    state_soft := s.current_state
    state_type := s.state_type }

end KpiService

/-- The events about services, each with the time. -/
inductive ServiceEvent where
  | service_status (s : ServiceStatus) (now : ℤ)
  | acknowledgement (ack : Acknowledgement) (now : ℤ)
  | downtime (dt : ServiceDowntime) (now : ℤ)

namespace ServiceEvent

def now : ServiceEvent → ℤ
  | service_status _ now | acknowledgement _ now | downtime _ now => now

/-- The event is about the service of the KPI. -/
def about (c : KpiConfig) : ServiceEvent → Bool
  | service_status s _ => s.host_id = c.host_id ∧ s.service_id = c.service_id
  | acknowledgement ack _ => ack.host_id = c.host_id ∧ ack.service_id = c.service_id
  | downtime dt _ => dt.host_id = c.host_id ∧ dt.service_id = c.service_id

end ServiceEvent

namespace KpiService

/-- What the three functions `service_update` take from an event. -/
def set (e : ServiceEvent) (k : KpiService) : KpiService :=
  match e with
  | .service_status s _ => k.setStatus s
  | .acknowledgement ack _ => { k with acknowledged := ack.deletion_time ≠ -1 }
  | .downtime dt _ => { k with downtimed := dt.was_started && is_null dt.actual_end_time }

/-- `service_update`, of the three kinds of events. The BA is told of it afterwards. -/
def service_update (k : KpiService) (e : ServiceEvent) : KpiService :=
  if e.about k.config then (k.set e).visit e.now else k

def run (k : KpiService) (events : List ServiceEvent) : KpiService := events.foldl service_update k

/-- What a visit leaves as it is. -/
structure Same (k k' : KpiService) : Prop where
  config : k'.config = k.config
  acknowledged : k'.acknowledged = k.acknowledged
  downtimed : k'.downtimed = k.downtimed
  last_check : k'.last_check = k.last_check
  state_hard : k'.state_hard = k.state_hard
  state_soft : k'.state_soft = k.state_soft

theorem same_visitEvent (k : KpiService) : Same k k.visitEvent := by
  unfold visitEvent
  split
  · split <;> exact ⟨rfl, rfl, rfl, rfl, rfl, rfl⟩
  · split <;> exact ⟨rfl, rfl, rfl, rfl, rfl, rfl⟩

theorem same_visit (now : ℤ) (k : KpiService) : Same k (k.visit now) := by
  have h := same_visitEvent k.commit_initial_events
  exact ⟨h.config, h.acknowledged, h.downtimed, h.last_check, h.state_hard, h.state_soft⟩

theorem set_config (e : ServiceEvent) (k : KpiService) : (k.set e).config = k.config := by
  cases e <;> rfl

theorem service_update_config (k : KpiService) (e : ServiceEvent) :
    (k.service_update e).config = k.config := by
  unfold service_update
  split
  · exact (same_visit e.now (k.set e)).config.trans (set_config e k)
  · rfl

theorem run_config (k : KpiService) (events : List ServiceEvent) : (k.run events).config = k.config := by
  induction events generalizing k with
  | nil => rfl
  | cons e events ih => exact (ih _).trans (service_update_config k e)

end KpiService

end CentreonBroker.Bam.Visit
