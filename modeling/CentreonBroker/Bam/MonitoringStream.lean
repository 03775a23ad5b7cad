import CentreonBroker.Bam.ReportingTables
import CentreonBroker.Lib.Sink

/-!
# The BAM monitoring stream

The statuses of services and the metrics go to the books of the BAs, whose events are published;
the statuses of BAs and of KPIs become statements, and some of them commands of the engine. The
events are acknowledged by a flush, which asks for a commit and does not learn whether it was done.
-/

namespace CentreonBroker.Bam

structure BaStatus where
  ba_id : ℕ
  in_downtime : Bool
  last_state_change : ℤ
  level_acknowledgement : ℚ
  level_downtime : ℚ
  level_nominal : ℚ
  state : ℤ
  state_changed : Bool

structure KpiStatus where
  kpi_id : ℕ
  in_downtime : Bool
  level_acknowledgement_hard : ℚ
  level_downtime_hard : ℚ
  level_nominal_hard : ℚ
  state_hard : ℤ
  last_state_change : ℤ
  last_impact : ℚ
  valid : Bool

inductive MonitoringEvent (E : Type) where
  /-- A status, an acknowledgement or a downtime of a service, or a metric. -/
  | booked (e : E)
  | ba_status (status : BaStatus)
  | kpi_status (status : KpiStatus)
  | inherited_downtime (in_downtime : Bool) (ba_id : ℕ)
  /-- An event of another type. -/
  | other

/-- The statements, with the values that are bound to them. -/
inductive MonitoringStatement where
  | ba_update (level_nominal level_acknowledgement level_downtime : ℚ)
      (last_state_change : Option ℤ) (in_downtime : Bool) (state : ℤ) (ba_id : ℕ)
  | kpi_update (level_acknowledgement_hard : ℚ) (state_hard : ℤ) (level_downtime_hard
      level_nominal_hard : ℚ) (state_type : ℤ) (last_state_change : Option ℤ) (last_impact : ℚ)
      (valid in_downtime : Bool) (kpi_id : ℕ)

/-- What is written to the command file. -/
inductive ExternalCommand where
  | schedule_forced_svc_check (now : ℤ) (host_name service_description : List Char)
  | schedule_svc_downtime (now : ℤ) (ba_id : ℕ)
  | del_svc_downtime_full (now : ℤ) (ba_id : ℕ)

/-- The stream, over the applier `A` and the events `E` of the services. -/
structure MonitoringStream (A P : Type) where
  pending_events : ℕ
  applier : A
  /-- `_ba_mapping`. -/
  ba_mapping : ℕ → List Char × List Char
  mysql : Mysql.Session Unit MonitoringStatement
  published : List P
  commands : List ExternalCommand

namespace MonitoringStream

variable {A P E : Type}

def new (applier : A) (ba_mapping : ℕ → List Char × List Char) (replies : List Mysql.Reply) :
    MonitoringStream A P :=
  ⟨0, applier, ba_mapping, .new () replies, [], []⟩

def flush (s : MonitoringStream A P) : ℕ × MonitoringStream A P :=
  (s.pending_events, { s with mysql := s.mysql.commit, pending_events := 0 })

/-- The statements are updates by the key, that no table refuses. -/
def exec : Unit → MonitoringStatement → Option (Unit × Unit) := fun _ _ => some ((), ())

/-- `_mysql.run_statement`, which throws where the connection is in error. -/
def run_statement (s : MonitoringStream A P) (st : MonitoringStatement) :
    Option (MonitoringStream A P) :=
  (s.mysql.run_statement exec true st).map fun mysql => { s with mysql := mysql }

def write_external_command (s : MonitoringStream A P) (cmd : ExternalCommand) :
    MonitoringStream A P :=
  { s with commands := s.commands ++ [cmd] }

/-- The check of the service of a BA, if its names are known. -/
def trigger_check (now : ℤ) (ba_id : ℕ) (s : MonitoringStream A P) : MonitoringStream A P :=
  let ba_svc_name := s.ba_mapping ba_id
  if ba_svc_name.1 = [] ∨ ba_svc_name.2 = [] then s
  else s.write_external_command (.schedule_forced_svc_check now ba_svc_name.1 ba_svc_name.2)

/-- The update of a BA. -/
def process_ba_status (now : ℤ) (status : BaStatus) (s : MonitoringStream A P) :
    Option (MonitoringStream A P) :=
  (s.run_statement (.ba_update status.level_nominal status.level_acknowledgement
    status.level_downtime (nullable status.last_state_change) status.in_downtime status.state
    status.ba_id)).map fun s =>
      if status.state_changed then s.trigger_check now status.ba_id else s

def process_kpi_status (status : KpiStatus) (s : MonitoringStream A P) :
    Option (MonitoringStream A P) :=
  s.run_statement (.kpi_update status.level_acknowledgement_hard status.state_hard
    status.level_downtime_hard status.level_nominal_hard (1 + 1) (nullable status.last_state_change)
    status.last_impact status.valid status.in_downtime status.kpi_id)

/-- What the books make of an event: the applier, and what is published. -/
abbrev Update (A P E : Type) := A → E → A × List P

variable (update : Update A P E)

def process (now : ℤ) (data : MonitoringEvent E) (s : MonitoringStream A P) :
    Option (MonitoringStream A P) :=
  match data with
  | .booked e =>
    let (applier, published) := update s.applier e
    some { s with applier := applier, published := s.published ++ published }
  | .ba_status status => process_ba_status now status s
  | .kpi_status status => process_kpi_status status s
  | .inherited_downtime in_downtime ba_id =>
    some (s.write_external_command
      (if in_downtime then .schedule_svc_downtime now ba_id else .del_svc_downtime_full now ba_id))
  | .other => some s

/-- `write`, at a time. There may be no event behind the pointer. -/
def write (data : ℤ × Option (MonitoringEvent E)) (s : MonitoringStream A P) :
    Option (ℕ × MonitoringStream A P) :=
  let s := { s with pending_events := s.pending_events + 1 }
  match data.2 with
  | none => some (0, s)
  | some e => (process update data.1 e s).map fun s => (0, s)

def sink : Sink (ℤ × Option (MonitoringEvent E)) (MonitoringStream A P) MonitoringStatement where
  write := write update
  flush s := some s.flush
  pending := pending_events
  output s := s.mysql.asked
  sent s := s.mysql.committed

/-! ## Accounting -/

variable {update} {s s' : MonitoringStream A P}

/-- The events that wait are those that waited, and nothing that there was to commit is lost. -/
structure Runs (s s' : MonitoringStream A P) : Prop where
  pending : s'.pending_events = s.pending_events
  committed : s.mysql.committed <+: s'.mysql.committed
  asked : s.mysql.asked <+: s'.mysql.asked
  sound : s'.mysql.Sound

theorem runs_of_mysql (hpending : s'.pending_events = s.pending_events)
    (hmysql : s'.mysql = s.mysql) (hsound : s.mysql.Sound) : Runs s s' :=
  ⟨hpending, hmysql ▸ List.prefix_refl _, hmysql ▸ List.prefix_refl _, hmysql ▸ hsound⟩

theorem runs_run_statement {st : MonitoringStatement} (h : s.run_statement st = some s')
    (hsound : s.mysql.Sound) : Runs s s' := by
  obtain ⟨mysql, hrun, rfl⟩ := Option.map_eq_some_iff.mp h
  have hattempt := Mysql.Session.attempt_eq exec hsound.served st
  rcases Mysql.Session.run_statement_eq hrun with ⟨r, -, rfl⟩ | ⟨hnone, -⟩
  · have hgrows := (Mysql.Session.grows_answered s.mysql).trans
      (Mysql.Session.grows_executed st r.2 _)
    exact ⟨rfl, hgrows.committed, hgrows.asked, hsound.answered.executed st r.2⟩
  · rw [hattempt] at hnone
    cases hnone

theorem runs_process {now : ℤ} {data : MonitoringEvent E} (h : process update now data s = some s')
    (hsound : s.mysql.Sound) : Runs s s' := by
  cases data with
  | booked e | inherited_downtime in_downtime ba_id | other =>
    cases h
    exact runs_of_mysql rfl rfl hsound
  | ba_status status =>
    obtain ⟨s₁, hrun, rfl⟩ := Option.map_eq_some_iff.mp h
    have hruns := runs_run_statement hrun hsound
    unfold trigger_check
    dsimp only
    split
    · split
      · exact hruns
      · exact ⟨hruns.pending, hruns.committed, hruns.asked, hruns.sound⟩
    · exact hruns
  | kpi_status status => exact runs_run_statement h hsound

/-- A write counts its event. -/
theorem runs_write {data : ℤ × Option (MonitoringEvent E)} {n : ℕ}
    (h : write update data s = some (n, s')) (hsound : s.mysql.Sound) :
    n = 0 ∧ Runs { s with pending_events := s.pending_events + 1 } s' := by
  obtain ⟨now, data⟩ := data
  cases data with
  | none =>
    cases h
    exact ⟨rfl, runs_of_mysql rfl rfl hsound⟩
  | some e =>
    obtain ⟨s₁, hprocess, h⟩ := Option.map_eq_some_iff.mp h
    cases h
    exact ⟨rfl, runs_process hprocess hsound⟩

theorem law : (sink update).Law (fun s => s.mysql.Sound) (fun _ _ => True) where
  fair := by
    intro c s n s' hsound _ h
    cases c with
    | write data =>
      obtain ⟨rfl, hruns⟩ := runs_write h hsound
      exact {
        count := (Nat.zero_add _).trans hruns.pending
        output := hruns.asked
        flushed := fun hzero => absurd hzero Nat.one_ne_zero
        sent := hruns.committed
        bounded := ⟨_, hruns.sound.asked.symm⟩
        settles := fun hne => absurd rfl hne }
    | flush =>
      cases h
      have hcommitted := hsound.commit.2
      have hasked := Mysql.Session.asked_commit s.mysql
      exact {
        count := rfl
        output := ⟨[], (List.append_nil _).trans hasked.symm⟩
        flushed := fun _ => hasked
        sent := (Mysql.Session.grows_commit s.mysql).committed
        bounded := ⟨[], (List.append_nil _).trans hcommitted⟩
        settles := fun _ => hcommitted }
  kept := by
    intro c s n s' hsound _ h
    cases c with
    | write data => exact (runs_write h hsound).2.sound
    | flush =>
      cases h
      exact hsound.commit.1

end MonitoringStream

end CentreonBroker.Bam
