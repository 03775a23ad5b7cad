import CentreonBroker.Bam.Ba

/-!
# What a BA writes

A visit of a BA writes the event that its state is in, once it is another one, and its status.
An event is written when it opens and, with its end, when it closes. The times are those of the
KPIs: a BA has the time of the last change that one of them told it.

The visitor is there in every call, and what it is given is the output. `fl` narrows a `double`.
-/

namespace CentreonBroker.Bam.Visit

/-- What a KPI answers to the BA. -/
structure KpiReport where
  info : ImpactInfo
  /-- `get_last_state_change`. -/
  last_state_change : ℤ

/-- `ok_state`: every class of KPIs gives its hard impact the state that it is asked about. -/
def KpiReport.ok_state (r : KpiReport) : Bool := r.info.hard_impact.state = .ok

/-- `ba_event`. -/
structure BaEvent where
  ba_id : ℕ
  end_time : ℤ
  first_level : ℚ
  in_downtime : Bool
  start_time : ℤ
  status : State
  deriving DecidableEq

/-- `timestamp::is_null`. -/
def is_null (t : ℤ) : Bool := t = -1 ∨ t = 0

/-- `ba_status`. -/
structure BaStatus where
  ba_id : ℕ
  in_downtime : Bool
  last_state_change : ℤ
  level_acknowledgement : ℚ
  level_downtime : ℚ
  level_nominal : ℚ
  state : State
  state_changed : Bool

/-- `neb::service_status`, of the virtual service of a BA or a meta-service. The other fields are constants. -/
structure VirtualStatus where
  host_id : ℕ
  service_id : ℕ
  current_state : State
  last_hard_state : State
  last_check : ℤ
  last_hard_state_change : ℤ
  last_state_change : ℤ
  last_update : ℤ
  output : String
  perf_data : String
  deriving DecidableEq

inductive BaOutput where
  | ba_event (e : BaEvent)
  | ba_status (s : BaStatus)
  | service_status (s : VirtualStatus)
  | inherited_downtime (ba_id : ℕ) (in_downtime : Bool)

/-- `neb::downtime`, as far as a BA reads it. -/
structure ServiceDowntime where
  host_id : ℕ
  service_id : ℕ
  was_started : Bool
  actual_end_time : ℤ

/-- `ba`, with what is not part of its totals. -/
structure LiveBa (K : Type) where
  ba : Ba K
  id : ℕ
  host_id : ℕ
  service_id : ℕ
  generate_virtual_status : Bool
  event : Option BaEvent
  in_downtime : Bool
  /-- Whether `_inherited_downtime` is there. -/
  inherited_downtime : Bool
  initial_events : List BaEvent
  last_kpi_update : ℤ
  /-- All that the visitor was given. -/
  out : List BaOutput

/-- `normalize`. -/
def normalize (d : ℚ) : ℚ := if 100 < d then 100 else if d < 0 then 0 else d

/-- `static_cast<int>`. -/
def toInt (d : ℚ) : ℤ := d.num.tdiv d.den

namespace LiveBa

variable {K : Type} [DecidableEq K]

/-- A new BA, once it is configured. -/
def init (c : Config) (id host_id service_id : ℕ) (generate_virtual_status : Bool) : LiveBa K where
  ba := .init c
  id := id
  host_id := host_id
  service_id := service_id
  generate_virtual_status := generate_virtual_status
  event := none
  in_downtime := false
  inherited_downtime := false
  initial_events := []
  last_kpi_update := 0
  out := []

def write (o : BaOutput) (b : LiveBa K) : LiveBa K := { b with out := b.out ++ [o] }

/-- `get_state_hard`, among KPIs that answer `report`. -/
def get_state_hard (fl : ℚ → ℚ) (report : K → KpiReport) (b : LiveBa K) : State :=
  b.ba.get_state_hard fl fun k => (report k).info.in_downtime

/-- `_open_new_event`. -/
def open_new_event (service_hard_state : State) (b : LiveBa K) : LiveBa K :=
  let e : BaEvent :=
    { ba_id := b.id
      end_time := -1
      first_level := if b.ba.hard.level < 0 then 0 else b.ba.hard.level
      in_downtime := b.in_downtime
      start_time := b.last_kpi_update
      status := service_hard_state }
  write (.ba_event e) { b with event := some e }

/-- `_commit_initial_events`. -/
def commit_initial_events (b : LiveBa K) : LiveBa K :=
  { b with out := b.out ++ b.initial_events.map .ba_event, initial_events := [] }

/-- The events of a visit. -/
def visitEvent (hard_state : State) (now : ℤ) (b : LiveBa K) : LiveBa K :=
  match b.event with
  | none =>
    open_new_event hard_state
      { b with last_kpi_update := if is_null b.last_kpi_update then now else b.last_kpi_update }
  | some e =>
    if b.in_downtime ≠ e.in_downtime ∨ hard_state ≠ e.status then
      open_new_event hard_state (write (.ba_event { e with end_time := b.last_kpi_update }) b)
    else b

/-- `state_changed`. -/
def stateChanged (hard_state : State) (b : LiveBa K) : Bool :=
  b.event.any fun e => b.in_downtime ≠ e.in_downtime ∨ hard_state ≠ e.status

/-- The start of the event, if there is one. -/
def lastStateChange (b : LiveBa K) : ℤ :=
  match b.event with
  | some e => e.start_time
  | none => b.last_kpi_update

/-- The status of a visit. -/
def status (hard_state : State) (state_changed : Bool) (b : LiveBa K) : BaStatus where
  ba_id := b.id
  in_downtime := b.in_downtime
  last_state_change := b.lastStateChange
  level_acknowledgement := normalize b.ba.hard.acknowledgement
  level_downtime := normalize b.ba.hard.downtime
  level_nominal := normalize b.ba.hard.level
  state := hard_state
  state_changed := state_changed

/-- The status of the virtual service. -/
def virtualStatus (hard_state : State) (now : ℤ) (b : LiveBa K) : VirtualStatus where
  host_id := b.host_id
  service_id := b.service_id
  current_state := hard_state
  last_hard_state := hard_state
  last_check := b.lastStateChange
  last_hard_state_change := b.lastStateChange
  last_state_change := b.lastStateChange
  last_update := now
  output := s!"BA : Business Activity {b.id} - current_level = {toInt (normalize b.ba.hard.level)}%"
  perf_data := s!"BA_Level={toInt (normalize b.ba.hard.level)}%;" ++
    s!"{toInt b.ba.config.level_warning};{toInt b.ba.config.level_critical};0;100"

/-- The statuses of a visit. -/
def writeStatus (hard_state : State) (state_changed : Bool) (now : ℤ) (b : LiveBa K) : LiveBa K :=
  let b := write (.ba_status (b.status hard_state state_changed)) b
  if b.generate_virtual_status then write (.service_status (b.virtualStatus hard_state now)) b else b

/-- `visit`. -/
def visit (fl : ℚ → ℚ) (report : K → KpiReport) (now : ℤ) (b : LiveBa K) : LiveBa K :=
  let b := b.commit_initial_events
  let hard_state := b.get_state_hard fl report
  writeStatus hard_state (b.stateChanged hard_state) now (b.visitEvent hard_state now)

/-- The change of a KPI that answers `r` raises the time of the last one. -/
def raise (r : KpiReport) (b : LiveBa K) : LiveBa K :=
  if r.last_state_change ≠ -1 then
    { b with last_kpi_update := max b.last_kpi_update r.last_state_change }
  else b

/-- `every_kpi_in_downtime`, of `_compute_inherited_downtime`. -/
def everyInDowntime (report : K → KpiReport) (b : LiveBa K) : Bool :=
  !b.ba.impacts.keys.isEmpty &&
    b.ba.impacts.keys.all fun k => (report k).ok_state || (report k).info.in_downtime

/-- `_compute_inherited_downtime`. -/
def compute_inherited_downtime (fl : ℚ → ℚ) (report : K → KpiReport) (b : LiveBa K) : LiveBa K :=
  if b.ba.config.dt_behaviour ≠ .dt_inherit then b
  else
    let state_ok : Bool := b.get_state_hard fl report = .ok
    if !state_ok && b.everyInDowntime report && !b.inherited_downtime then
      write (.inherited_downtime b.id true) { b with inherited_downtime := true, in_downtime := true }
    else if (state_ok || !b.everyInDowntime report) && b.inherited_downtime then
      write (.inherited_downtime b.id false) { b with inherited_downtime := false }
    else b

/-- `add_impact`, for a KPI that answers `r`. -/
def add_impact (k : K) (r : KpiReport) (b : LiveBa K) : LiveBa K :=
  if k ∈ b.ba.impacts then b else raise r { b with ba := b.ba.add_impact k r.info }

/-- Whether `child_has_update` gets past its first tests. -/
def changes (k : K) (r : KpiReport) (b : LiveBa K) : Bool :=
  (b.ba.impacts.lookup k).any (· ≠ r.info)

/-- `child_has_update`, where the KPIs answer `report`. -/
def child_has_update (fl : ℚ → ℚ) (report : K → KpiReport) (k : K) (now : ℤ) (b : LiveBa K) :
    LiveBa K :=
  if b.changes k (report k) then
    let b := raise (report k) b
    let b := { b with ba := (b.ba.child_has_update k (report k).info).2 }
    visit fl report now (compute_inherited_downtime fl report b)
  else b

/-- `remove_impact`. -/
def remove_impact (k : K) (b : LiveBa K) : LiveBa K := { b with ba := b.ba.remove_impact k }

/-- `service_update`, for a downtime of the service of the BA. -/
def service_update (fl : ℚ → ℚ) (report : K → KpiReport) (dt : ServiceDowntime) (now : ℤ)
    (b : LiveBa K) : LiveBa K :=
  if dt.host_id = b.host_id ∧ dt.service_id = b.service_id then
    let in_downtime : Bool := dt.was_started ∧ (dt.actual_end_time = -1 ∨ dt.actual_end_time = 0)
    if b.in_downtime ≠ in_downtime then visit fl report now { b with in_downtime := in_downtime }
    else b
  else b

/-- `set_initial_event`. -/
def set_initial_event (e : BaEvent) (b : LiveBa K) : LiveBa K :=
  match b.event with
  | some _ => b
  | none =>
    { b with
      event := some e
      in_downtime := e.in_downtime
      last_kpi_update := e.start_time
      initial_events := b.initial_events ++ [e] }

end LiveBa

/-! ## Runs -/

/-- A BA among KPIs, with what each of them answers now. -/
structure LiveWorld (K : Type) where
  report : K → KpiReport
  live : LiveBa K

/-- The calls, each with the time. The event that a BA recovers is one that is still open. -/
inductive LiveOp (K : Type) where
  | add_impact (k : K)
  | child_has_update (k : K) (r : KpiReport) (now : ℤ)
  | remove_impact (k : K)
  | service_update (dt : ServiceDowntime) (now : ℤ)
  | set_initial_event (e : BaEvent) (h : e.end_time = -1)
  | visit (now : ℤ)

namespace LiveWorld

variable {K : Type} [DecidableEq K]

/-- What the KPIs answer once a call has been made. -/
def reportAfter (w : LiveWorld K) : LiveOp K → K → KpiReport
  | .child_has_update k r _ => Function.update w.report k r
  | _ => w.report

def step (fl : ℚ → ℚ) (w : LiveWorld K) (op : LiveOp K) : LiveWorld K where
  report := w.reportAfter op
  live :=
    match op with
    | .add_impact k => w.live.add_impact k (w.report k)
    | .child_has_update k r now => w.live.child_has_update fl (Function.update w.report k r) k now
    | .remove_impact k => w.live.remove_impact k
    | .service_update dt now => w.live.service_update fl w.report dt now
    | .set_initial_event e _ => w.live.set_initial_event e
    | .visit now => w.live.visit fl w.report now

def run (fl : ℚ → ℚ) (w : LiveWorld K) (ops : List (LiveOp K)) : LiveWorld K := ops.foldl (step fl) w

end LiveWorld

end CentreonBroker.Bam.Visit
