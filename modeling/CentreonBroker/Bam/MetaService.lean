import CentreonBroker.Bam.BaVisit
import CentreonBroker.Lib.Entries

/-!
# Meta-services

A meta-service computes a value from metrics. An update of a metric adjusts the value, or computes
it again: every hundred updates, and after metrics were added or removed. But an update that brings
the value that the metric has already does neither, and may write what is left from before.

A value is a number or NaN. Numbers are exact; `fmt` is how a stream prints them.
-/

namespace CentreonBroker.Bam.Visit

/-- `meta_service::computation_type`. -/
inductive Computation where
  | average
  | min
  | max
  | sum
  deriving DecidableEq

/-- What a meta-service writes: `meta_service_status`, and the status of its virtual service. -/
inductive MetaOutput where
  | meta_service_status (meta_service_id : ℕ) (value : Option ℚ) (state_changed : Bool)
  | service_status (s : VirtualStatus)
  deriving DecidableEq

/-- `meta_service`. -/
structure MetaService where
  computation : Computation
  id : ℕ
  host_id : ℕ
  service_id : ℕ
  last_state : State
  level_critical : ℚ
  level_warning : ℚ
  metrics : AList fun _ : ℕ => ℚ
  recompute_count : ℕ
  value : Option ℚ
  last_service_status_sent : ℤ
  /-- All that the visitor was given, with the time. -/
  out : List (ℤ × MetaOutput)

/-- The loops over the metrics for an extremum. The order of an `unordered_map` is unspecified. -/
def scan (better : ℚ → ℚ → Bool) : List ℚ → Option ℚ
  | [] => none
  | v :: vs => some (vs.foldl (fun value v => if better v value then v else value) v)

namespace MetaService

/-- `_recompute_limit`. -/
def recompute_limit : ℕ := 100

/-- A new meta-service, once it is configured. The type of the computation is set after the metrics. -/
def init (computation : Computation) (id host_id service_id : ℕ) (level_critical level_warning : ℚ) :
    MetaService where
  computation := computation
  id := id
  host_id := host_id
  service_id := service_id
  last_state := .unknown
  level_critical := level_critical
  level_warning := level_warning
  metrics := ∅
  recompute_count := recompute_limit
  value := none
  last_service_status_sent := -1
  out := []

/-- The values of the metrics. -/
def values (metrics : AList fun _ : ℕ => ℚ) : List ℚ := metrics.entries.map Sigma.snd

def write (now : ℤ) (o : MetaOutput) (m : MetaService) : MetaService :=
  { m with out := m.out ++ [(now, o)] }

def add_metric (metric_id : ℕ) (m : MetaService) : MetaService :=
  { m with metrics := m.metrics.insert metric_id 0, recompute_count := recompute_limit }

def remove_metric (metric_id : ℕ) (m : MetaService) : MetaService :=
  { m with metrics := m.metrics.erase metric_id, recompute_count := recompute_limit }

/-- What `recompute` finds. -/
def computed (c : Computation) (l : List ℚ) : Option ℚ :=
  match c with
  | .min => scan (fun v value => v < value) l
  | .max => scan (fun v value => v > value) l
  | .sum => some (l.foldl (· + ·) 0)
  | .average => if l.length = 0 then none else some (l.foldl (· + ·) 0 / l.length)

def recompute (m : MetaService) : MetaService :=
  { m with value := computed m.computation (values m.metrics), recompute_count := 0 }

/-- `_recompute_partial`. -/
def recomputePartial (new_value old_value : ℚ) (m : MetaService) : MetaService :=
  match m.computation with
  | .min =>
    if m.value.any (new_value ≤ ·) then { m with value := some new_value }
    else if m.value = some old_value then m.recompute
    else m
  | .max =>
    if m.value.any (new_value ≥ ·) then { m with value := some new_value }
    else if m.value = some old_value then m.recompute
    else m
  | .sum => { m with value := m.value.map fun v => v - old_value + new_value }
  | .average =>
    { m with
      value := m.value.map fun v => v + (new_value - old_value) / (values m.metrics).length }

/-- `get_state`, for a value. -/
def stateOf (level_critical level_warning : ℚ) (value : Option ℚ) : State :=
  let less_than : Bool := level_warning < level_critical
  if less_than && value.any (level_critical ≤ ·) || !less_than && value.any (· ≤ level_critical) then
    .critical
  else if less_than && value.any (level_warning ≤ ·) || !less_than && value.any (· ≤ level_warning) then
    .warning
  else if value.isNone then .unknown
  else .ok

def get_state (m : MetaService) : State := stateOf m.level_critical m.level_warning m.value

def get_output (m : MetaService) : String := "Meta-Service " ++ toString m.id

/-- `get_perfdata`, for a value. -/
def perfdataOf (fmt : Option ℚ → String) (level_critical level_warning : ℚ) (value : Option ℚ) :
    String :=
  "g[rta]=" ++ fmt value ++ ";" ++ fmt (some level_warning) ++ ";" ++ fmt (some level_critical)

def get_perfdata (fmt : Option ℚ → String) (m : MetaService) : String :=
  perfdataOf fmt m.level_critical m.level_warning m.value

/-- `visit`, and whether the state changed. -/
def visit (now : ℤ) (m : MetaService) : Bool × MetaService :=
  let m := if m.recompute_count ≥ recompute_limit then m.recompute else m
  let new_state := m.get_state
  let changed_state : Bool := m.last_state ≠ new_state
  (changed_state,
    write now (.meta_service_status m.id m.value changed_state) { m with last_state := new_state })

/-- The status of the virtual service. -/
def virtualStatus (fmt : Option ℚ → String) (now : ℤ) (m : MetaService) : VirtualStatus where
  host_id := m.host_id
  service_id := m.service_id
  current_state := m.get_state
  last_hard_state := m.get_state
  last_check := now
  last_hard_state_change := now
  last_state_change := now
  last_update := now
  output := m.get_output
  perf_data := m.get_perfdata fmt

/-- `_send_service_status`. `difftime` has the time of the last status as the end. -/
def send_service_status (fmt : Option ℚ → String) (now : ℤ) (state_has_changed : Bool)
    (m : MetaService) : MetaService :=
  if state_has_changed ∨ is_null m.last_service_status_sent ∨
      m.last_service_status_sent - now ≥ 60 then
    write now (.service_status (m.virtualStatus fmt now)) { m with last_service_status_sent := now }
  else m

/-- `metric_update`, where the value is another one: the part in front of the visit. -/
def setMetric (metric_id : ℕ) (value old_value : ℚ) (m : MetaService) : MetaService :=
  let m := { m with metrics := m.metrics.insert metric_id value }
  let m := { m with recompute_count := m.recompute_count + 1 }
  if m.recompute_count ≥ recompute_limit then m.recompute else m.recomputePartial value old_value

def metric_update (fmt : Option ℚ → String) (metric_id : ℕ) (value : ℚ) (now : ℤ) (m : MetaService) :
    MetaService :=
  match m.metrics.lookup metric_id with
  | none => m
  | some old_value =>
    if old_value ≠ value then
      let visited := (m.setMetric metric_id value old_value).visit now
      visited.2.send_service_status fmt now visited.1
    else m.send_service_status fmt now false

end MetaService

/-- The calls. -/
inductive MetaOp where
  | add_metric (metric_id : ℕ)
  | remove_metric (metric_id : ℕ)
  | metric_update (metric_id : ℕ) (value : ℚ) (now : ℤ)

namespace MetaService

def step (fmt : Option ℚ → String) (m : MetaService) : MetaOp → MetaService
  | .add_metric metric_id => m.add_metric metric_id
  | .remove_metric metric_id => m.remove_metric metric_id
  | .metric_update metric_id value now => m.metric_update fmt metric_id value now

def run (fmt : Option ℚ → String) (m : MetaService) (ops : List MetaOp) : MetaService :=
  ops.foldl (step fmt) m

/-! ## What is written -/

/-- What is set once and for all. -/
structure SameConfig (m m' : MetaService) : Prop where
  computation : m'.computation = m.computation
  level_critical : m'.level_critical = m.level_critical
  level_warning : m'.level_warning = m.level_warning

theorem SameConfig.refl (m : MetaService) : SameConfig m m := ⟨rfl, rfl, rfl⟩

theorem SameConfig.trans {m m' m'' : MetaService} (h : SameConfig m m') (h' : SameConfig m' m'') :
    SameConfig m m'' :=
  ⟨h'.computation.trans h.computation, h'.level_critical.trans h.level_critical,
    h'.level_warning.trans h.level_warning⟩

/-- A call that writes only: some outputs, and the value is what it was. -/
structure Writes (m m' : MetaService) (new : List MetaOutput) (now : ℤ) : Prop where
  config : SameConfig m m'
  metrics : m'.metrics = m.metrics
  recompute_count : m'.recompute_count = m.recompute_count
  value : m'.value = m.value
  out : m'.out = m.out ++ new.map (now, ·)

theorem Writes.trans {m m' m'' : MetaService} {new new' : List MetaOutput} {now : ℤ}
    (h : Writes m m' new now) (h' : Writes m' m'' new' now) : Writes m m'' (new ++ new') now where
  config := h.config.trans h'.config
  metrics := h'.metrics.trans h.metrics
  recompute_count := h'.recompute_count.trans h.recompute_count
  value := h'.value.trans h.value
  out := by rw [h'.out, h.out, List.append_assoc, List.map_append]

theorem writes_send_service_status (fmt : Option ℚ → String) (now : ℤ) (state_has_changed : Bool)
    (m : MetaService) : ∃ new, Writes m (m.send_service_status fmt now state_has_changed) new now ∧
      ∀ o ∈ new, o = .service_status (m.virtualStatus fmt now) := by
  unfold send_service_status
  split
  · refine ⟨[_], ⟨⟨rfl, rfl, rfl⟩, rfl, rfl, rfl, rfl⟩, ?_⟩
    intro o ho
    exact List.mem_singleton.mp ho
  · refine ⟨[], ⟨.refl m, rfl, rfl, rfl, (List.append_nil _).symm⟩, ?_⟩
    intro o ho
    cases ho

theorem writes_visit (now : ℤ) {m : MetaService} (h : m.recompute_count < recompute_limit) :
    Writes m (m.visit now).2 [.meta_service_status m.id m.value (m.visit now).1] now := by
  have hnot : ¬ m.recompute_count ≥ recompute_limit := by omega
  unfold visit
  simp only [hnot, if_false]
  exact ⟨⟨rfl, rfl, rfl⟩, rfl, rfl, rfl, rfl⟩

end MetaService

end CentreonBroker.Bam.Visit
