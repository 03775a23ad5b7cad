import CentreonBroker.Bam.ReportingTables
import CentreonBroker.Time.Timeperiod
import Mathlib.Logic.Function.Basic

/-!
# The BAM reporting stream

The events that are written to the stream become rows. The end of a BA event also becomes
duration events, one for each time period of the BA, that the stream writes to itself. The
dimension events are kept until the closing signal of their dump.

A function that throws has no result.
-/

namespace CentreonBroker.Bam

open Time (Timeperiod)

/-! ## Events -/

structure BaEvent where
  ba_id : ℕ
  first_level : ℚ
  end_time : ℤ
  in_downtime : Bool
  start_time : ℤ
  status : ℤ

structure KpiEvent where
  end_time : ℤ
  kpi_id : ℕ
  impact_level : ℤ
  in_downtime : Bool
  start_time : ℤ
  status : ℤ
  ba_id : ℕ

structure BaDurationEvent where
  ba_id : ℕ
  real_start_time : ℤ
  end_time : ℤ
  start_time : ℤ
  duration : ℤ
  sla_duration : ℕ
  timeperiod_id : ℕ
  timeperiod_is_default : Bool

structure DimensionKpiEvent where
  kpi_id : ℕ
  ba_id : ℕ
  ba_name : List Char
  host_id : ℕ
  host_name : List Char
  service_id : ℕ
  service_description : List Char
  kpi_ba_id : ℕ
  kpi_ba_name : List Char
  meta_service_id : ℕ
  meta_service_name : List Char
  boolean_id : ℕ
  boolean_name : List Char
  impact_warning : ℚ
  impact_critical : ℚ
  impact_unknown : ℚ
  deriving DecidableEq

/-- A dimension event. But for a KPI, its fields are the columns of a row. -/
inductive Dimension where
  | ba_event (dba : BaRow)
  | bv_event (dbv : BvRow)
  | ba_bv_relation_event (dbabv : BaBvRow)
  | kpi_event (dk : DimensionKpiEvent)
  | timeperiod (tp : TimeperiodRow)
  | timeperiod_exception (tpe : TimeperiodExceptionRow)
  | timeperiod_exclusion (tpe : TimeperiodExclusionRow)
  | ba_timeperiod_relation (r : BaTimeperiodRow)
  deriving DecidableEq

inductive Event where
  | kpi_event (ke : KpiEvent)
  | ba_event (be : BaEvent)
  | ba_duration_event (bde : BaDurationEvent)
  | dimension_truncate_table_signal (update_started : Bool)
  | dimension (d : Dimension)
  | rebuild (bas_to_rebuild : List ℕ)
  /-- An event of another type. -/
  | other

/-! ## Time periods -/

/-- A time period: what it was made of, and what was added to it. -/
structure Period where
  id : ℕ
  name : List Char
  timeperiod : Timeperiod
  exceptions : List (List Char × List Char)
  excluded : List ℕ

/-- The ranges of a declaration, if `set_timerange` accepts them all. -/
def TimeperiodRow.timeperiod? (tp : TimeperiodRow) : Option Timeperiod :=
  [tp.sunday, tp.monday, tp.tuesday, tp.wednesday, tp.thursday, tp.friday,
    tp.saturday].zipIdx.foldlM (fun timeperiod day =>
      let (success, timeperiod) := timeperiod.set_timerange day.1 day.2
      if success then some timeperiod else none) ⟨fun _ => []⟩

/-- The constructor, which throws where a range cannot be parsed. -/
def Period.make (tp : TimeperiodRow) : Option Period :=
  tp.timeperiod?.map fun timeperiod => ⟨tp.timeperiod_id, tp.name, timeperiod, [], []⟩

/-- `timeperiod_map`. The relations of a BA are in the order in which they were added. -/
structure TimeperiodMap where
  map : ℕ → Option Period
  relations : List BaTimeperiodRow

namespace TimeperiodMap

def new : TimeperiodMap := ⟨fun _ => none, []⟩

def get_timeperiod (m : TimeperiodMap) (id : ℕ) : Option Period := m.map id

def add_timeperiod (m : TimeperiodMap) (id : ℕ) (tp : Period) : TimeperiodMap :=
  { m with map := Function.update m.map id (some tp) }

def add_relation (m : TimeperiodMap) (r : BaTimeperiodRow) : TimeperiodMap :=
  { m with relations := m.relations ++ [r] }

/-- It throws where a time period is not in the map. -/
def get_timeperiods_by_ba_id (m : TimeperiodMap) (ba_id : ℕ) : Option (List (Period × Bool)) :=
  (m.relations.filter fun r => r.ba_id = ba_id).mapM fun r =>
    (m.get_timeperiod r.timeperiod_id).map fun tp => (tp, r.is_default)

/-- `_apply` of a time period. -/
def apply_timeperiod (m : TimeperiodMap) (tp : TimeperiodRow) : Option TimeperiodMap :=
  (Period.make tp).map fun period => m.add_timeperiod tp.timeperiod_id period

/-- `_apply` of an exception, which does nothing where the time period does not exist. -/
def apply_exception (m : TimeperiodMap) (tpe : TimeperiodExceptionRow) : TimeperiodMap :=
  match m.get_timeperiod tpe.timeperiod_id with
  | some tp => m.add_timeperiod tpe.timeperiod_id
      { tp with exceptions := tp.exceptions ++ [(tpe.daterange, tpe.timerange)] }
  | none => m

/-- `_apply` of an exclusion. -/
def apply_exclusion (m : TimeperiodMap) (tpe : TimeperiodExclusionRow) : TimeperiodMap :=
  match m.get_timeperiod tpe.timeperiod_id, m.get_timeperiod tpe.excluded_timeperiod_id with
  | some tp, some _ => m.add_timeperiod tpe.timeperiod_id
      { tp with excluded := tp.excluded ++ [tpe.excluded_timeperiod_id] }
  | _, _ => m

end TimeperiodMap

/-! ## Rows -/

def BaEvent.row (be : BaEvent) : BaEventRow :=
  ⟨be.ba_id, be.first_level.num.tdiv be.first_level.den, be.start_time, nullable be.end_time,
    be.status, be.in_downtime⟩

def KpiEvent.row (ke : KpiEvent) : KpiEventRow :=
  ⟨ke.kpi_id, ke.start_time, nullable ke.end_time, ke.status, ke.in_downtime, ke.impact_level⟩

def BaDurationEvent.row (bde : BaDurationEvent) : DurationRow :=
  ⟨bde.start_time, bde.end_time, bde.duration, bde.sla_duration, bde.timeperiod_id,
    bde.timeperiod_is_default⟩

def DimensionKpiEvent.kpi_name (dk : DimensionKpiEvent) : List Char :=
  if dk.service_description ≠ [] then dk.host_name ++ [' '] ++ dk.service_description
  else if dk.kpi_ba_name ≠ [] then dk.kpi_ba_name
  else if dk.boolean_name ≠ [] then dk.boolean_name
  else dk.meta_service_name

/-- The row that is inserted for a dimension event: its texts are cut to the columns. -/
def Dimension.row : Dimension → DimensionRow
  | .ba_event dba => .ba { dba with
      ba_name := truncate dba.ba_name 254
      ba_description := truncate dba.ba_description 65534 }
  | .bv_event dbv => .bv { dbv with
      bv_name := truncate dbv.bv_name 255
      bv_description := truncate dbv.bv_description 65534 }
  | .ba_bv_relation_event dbabv => .relation_ba_bv dbabv
  | .kpi_event dk => .kpi {
      kpi_id := dk.kpi_id
      kpi_name := truncate dk.kpi_name 255
      ba_id := dk.ba_id
      ba_name := truncate dk.ba_name 254
      host_id := dk.host_id
      host_name := truncate dk.host_name 255
      service_id := dk.service_id
      service_description := truncate dk.service_description 255
      kpi_ba_id := if dk.kpi_ba_id ≠ 0 then some dk.kpi_ba_id else none
      kpi_ba_name := truncate dk.kpi_ba_name 254
      meta_service_id := dk.meta_service_id
      meta_service_name := truncate dk.meta_service_name 254
      impact_warning := dk.impact_warning
      impact_critical := dk.impact_critical
      impact_unknown := dk.impact_unknown
      boolean_id := dk.boolean_id
      boolean_name := truncate dk.boolean_name 255 }
  | .timeperiod tp => .timeperiod {
      timeperiod_id := tp.timeperiod_id
      name := truncate tp.name 200
      sunday := truncate tp.sunday 200
      monday := truncate tp.monday 200
      tuesday := truncate tp.tuesday 200
      wednesday := truncate tp.wednesday 200
      thursday := truncate tp.thursday 200
      friday := truncate tp.friday 200
      saturday := truncate tp.saturday 200 }
  | .timeperiod_exception tpe => .timeperiod_exception { tpe with
      daterange := truncate tpe.daterange 255
      timerange := truncate tpe.timerange 255 }
  | .timeperiod_exclusion tpe => .timeperiod_exclusion tpe
  | .ba_timeperiod_relation r => .relation_ba_timeperiod r

/-! ## The stream -/

structure ReportingStream where
  ack_events : ℕ
  pending_events : ℕ
  mysql : Database
  timeperiods : TimeperiodMap
  dimension_data_cache : List Dimension
  /-- `_last_inserted_kpi`: the link that was made for a BA and a time. -/
  last_inserted_kpi : ℕ → ℤ → Option ℕ
  processing_dimensions : Bool

namespace ReportingStream

/-- A stream that nothing was written to, over the database and the time periods that the
constructor leaves. -/
def connected (mysql : Database) (timeperiods : TimeperiodMap) : ReportingStream :=
  ⟨0, 0, mysql, timeperiods, [], fun _ _ => none, false⟩

/-- Over a server that does what it is asked for. -/
def new (tables : Tables) (timeperiods : TimeperiodMap) : ReportingStream :=
  connected (.new tables []) timeperiods

/-- `_mysql.run_statement_and_get_int`. -/
def run (s : ReportingStream) (st : Statement) : Option (Answer × ReportingStream) :=
  (s.mysql.run_and_get Tables.exec st).map fun r => (r.1, { s with mysql := r.2 })

/-- `_mysql.run_statement`, of which nothing is asked. -/
def run_statement (s : ReportingStream) (fatal : Bool) (st : Statement) : Option ReportingStream :=
  (s.mysql.run_statement Tables.exec fatal st).map fun mysql => { s with mysql := mysql }

def commit (s : ReportingStream) : ReportingStream := { s with mysql := s.mysql.commit }

/-! ### Dimensions -/

def process_dimension (d : Dimension) (s : ReportingStream) : ReportingStream :=
  if s.processing_dimensions then
    { s with dimension_data_cache := s.dimension_data_cache ++ [d] }
  else s

/-- What `_dimension_dispatch` does to the time periods, unless it throws. -/
def applyDimension (m : TimeperiodMap) : Dimension → Option TimeperiodMap
  | .timeperiod tp => m.apply_timeperiod tp
  | .timeperiod_exception tpe => some (m.apply_exception tpe)
  | .timeperiod_exclusion tpe => some (m.apply_exclusion tpe)
  | .ba_timeperiod_relation r => some (m.add_relation r)
  | _ => some m

/-- The loop over the dimensions that were kept. A row that is refused is only logged; an exception
ends the loop, and is ignored. -/
def dimension_dispatch : List Dimension → ReportingStream → ReportingStream
  | [], s => s
  | d :: ds, s =>
    match s.run_statement false (.dimension_insert d.row) with
    | none => s
    | some s =>
      match applyDimension s.timeperiods d with
      | some timeperiods => dimension_dispatch ds { s with timeperiods := timeperiods }
      | none => s

def dimension_truncate_tables : List Truncated := [.kpi, .relations_ba_bv, .ba, .bv, .timeperiods]

def process_dimension_truncate_signal (update_started : Bool) (s : ReportingStream) :
    Option ReportingStream :=
  if update_started then
    some { s with processing_dimensions := true, dimension_data_cache := [] }
  else do
    let s ← dimension_truncate_tables.foldlM
      (fun s t => s.run_statement false (.dimension_truncate t)) s
    let s := dimension_dispatch s.dimension_data_cache { s with timeperiods := TimeperiodMap.new }
    some { s.commit with dimension_data_cache := [], processing_dimensions := false }

/-! ### Events -/

/-- `m_events` once an event of the BA is inserted: what is before it is removed. -/
def removeOlder (start_time : ℤ) (m_events : ℤ → Option ℕ) (t : ℤ) : Option ℕ :=
  if t < start_time then none else m_events t

/-- `_process_kpi_event`. -/
def process_kpi_event (ke : KpiEvent) (s : ReportingStream) : Option ReportingStream := do
  let (answer, s) ← s.run (.kpi_event_update ke.row)
  if answer.affected_rows = 0 then
    let s ← s.run_statement true (.kpi_full_event_insert ke.row)
    let (answer, s) ← s.run (.kpi_event_link ke.kpi_id ke.start_time ke.ba_id)
    let m_events := s.last_inserted_kpi ke.ba_id
    -- `insert` leaves a link that was there
    let m_events := Function.update m_events ke.start_time
      (some ((m_events ke.start_time).getD answer.last_insert_id))
    some { s with last_inserted_kpi := Function.update s.last_inserted_kpi ke.ba_id m_events }
  else some s

def process_ba_duration_event (bde : BaDurationEvent) (s : ReportingStream) :
    Option ReportingStream := do
  let (answer, s) ← s.run (.ba_duration_event_update bde.row bde.ba_id bde.real_start_time)
  if answer.affected_rows = 0 then
    s.run_statement true (.ba_duration_event_insert bde.row bde.ba_id bde.real_start_time)
  else some s

/-- The beginning of `write`. -/
def account (s : ReportingStream) : ReportingStream :=
  { s with pending_events := s.pending_events + 1 }

/-- The end of `write`. -/
def acknowledge (s : ReportingStream) : ℕ × ReportingStream :=
  (s.ack_events, { s with ack_events := 0 })

/-- `write` of a duration event, which the stream calls itself. -/
def write_ba_duration_event (bde : BaDurationEvent) (s : ReportingStream) :
    Option (ℕ × ReportingStream) :=
  (process_ba_duration_event bde s.account).map acknowledge

section

variable (offset : ℤ) (duration_intersect : Timeperiod → ℤ → ℤ → ℕ)

/-- The duration of an event on a time period, if it has one. -/
def durationOn (ev : BaEvent) (tp : Period) (is_default : Bool) : Option BaDurationEvent :=
  let start_time := tp.timeperiod.get_next_valid offset ev.start_time
  if start_time ≠ -1 ∧ ev.end_time ≠ -1 ∧ start_time < ev.end_time then
    some {
      ba_id := ev.ba_id
      real_start_time := ev.start_time
      start_time := start_time
      end_time := ev.end_time
      duration := ev.end_time - start_time
      sla_duration := duration_intersect tp.timeperiod start_time ev.end_time
      timeperiod_id := tp.id
      timeperiod_is_default := is_default }
  else none

/-- `_compute_event_durations`, with the stream itself as visitor. -/
def compute_event_durations (ev : BaEvent) (s : ReportingStream) : Option ReportingStream := do
  let timeperiods ← s.timeperiods.get_timeperiods_by_ba_id ev.ba_id
  timeperiods.foldlM (fun s tp =>
    match durationOn offset duration_intersect ev tp.1 tp.2 with
    | some dur_ev => (write_ba_duration_event dur_ev s).map (·.2)
    | none => some s) s

/-- What `_process_ba_event` does once an event is inserted. -/
def relink (be : BaEvent) (newba : ℕ) (s : ReportingStream) : Option ReportingStream := do
  let s ← match s.last_inserted_kpi be.ba_id be.start_time with
    | some relation_id => s.run_statement true (.kpi_event_link_update newba relation_id)
    | none => some s
  let m_events := removeOlder be.start_time (s.last_inserted_kpi be.ba_id)
  some { s with last_inserted_kpi := Function.update s.last_inserted_kpi be.ba_id m_events }

/-- The row of a BA event: it is updated, or inserted if there is none. -/
def store_ba_event (be : BaEvent) (s : ReportingStream) : Option ReportingStream := do
  let (answer, s) ← s.run (.ba_event_update be.row)
  if answer.affected_rows = 0 then
    let (answer, s) ← s.run (.ba_full_event_insert be.row)
    relink be answer.last_insert_id s
  else some s

def process_ba_event (be : BaEvent) (s : ReportingStream) : Option ReportingStream := do
  let s ← store_ba_event be s
  if ¬ isNull be.end_time ∧ be.start_time ≠ be.end_time then
    compute_event_durations offset duration_intersect be s
  else some s

/-- The events that `_process_rebuild` selects. -/
def closedEvents (bas : List ℕ) (s : ReportingStream) : List BaEvent :=
  s.mysql.tables.ba_events.filterMap fun e =>
    if e.2.ba_id ∈ bas then e.2.end_time.map fun end_time =>
      ⟨e.2.ba_id, 0, end_time, e.2.in_downtime, e.2.start_time, e.2.status⟩
    else none

def process_rebuild (bas_to_rebuild : List ℕ) (s : ReportingStream) : Option ReportingStream :=
  if bas_to_rebuild = [] then some s
  else do
    let s ← s.run_statement true (.delete_durations bas_to_rebuild)
    let s ← s.mysql.check_errors.map fun mysql => { s with mysql := mysql }
    (s.closedEvents bas_to_rebuild).foldlM (fun s ev =>
      compute_event_durations offset duration_intersect ev s) s

/-! ### The calls -/

def process (data : Event) (s : ReportingStream) : Option ReportingStream :=
  match data with
  | .kpi_event ke => process_kpi_event ke s
  | .ba_event be => process_ba_event offset duration_intersect be s
  | .ba_duration_event bde => process_ba_duration_event bde s
  | .dimension_truncate_table_signal update_started =>
    process_dimension_truncate_signal update_started s
  | .dimension d => some (process_dimension d s)
  | .rebuild bas_to_rebuild => process_rebuild offset duration_intersect bas_to_rebuild s
  | .other => some s

/-- `write`. There may be no event behind the pointer. -/
def write (data : Option Event) (s : ReportingStream) : Option (ℕ × ReportingStream) :=
  match data with
  | none => some (0, s.account)
  | some data => (process offset duration_intersect data s.account).map acknowledge

end

def flush (s : ReportingStream) : ℕ × ReportingStream :=
  (s.ack_events + s.pending_events, { s.commit with ack_events := 0, pending_events := 0 })

end ReportingStream

end CentreonBroker.Bam
