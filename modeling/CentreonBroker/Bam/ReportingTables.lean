import CentreonBroker.Mysql.Session
import Mathlib.Data.Rat.Defs
import Mathlib.Data.Int.Notation

/-!
# The tables of the BAM reporting

The rows of the reporting tables and the statements that `reporting_stream` prepares. A
statement fails where a key of the schema is violated; deleting the rows of a table deletes
those that refer to them.

Texts are byte strings, a character for each byte.
-/

namespace CentreonBroker.Bam

/-- `misc::string::truncate`: the last byte that is kept ends a character. -/
def truncate (str : List Char) (s : ℕ) : List Char :=
  if str.length ≤ s then str else str.take (cut s)
where
  cut : ℕ → ℕ
    | 0 => 0
    | s + 1 => if (str.getD (s + 1) ' ').toNat &&& 0xc0 = 0x80 then cut s else s + 1

/-! ## Rows -/

/-- `timestamp::is_null`. -/
def isNull (t : ℤ) : Prop := t = -1 ∨ t = 0

instance (t : ℤ) : Decidable (isNull t) := inferInstanceAs (Decidable (_ ∨ _))

/-- What is bound for a timestamp. -/
def nullable (t : ℤ) : Option ℤ := if isNull t then none else some t

/-- The columns of `mod_bam_reporting_ba_events`, less its key. -/
structure BaEventRow where
  ba_id : ℕ
  first_level : ℤ
  start_time : ℤ
  end_time : Option ℤ
  status : ℤ
  in_downtime : Bool
  deriving DecidableEq

structure KpiEventRow where
  kpi_id : ℕ
  start_time : ℤ
  end_time : Option ℤ
  status : ℤ
  in_downtime : Bool
  impact_level : ℤ
  deriving DecidableEq

/-- The columns of `mod_bam_reporting_ba_events_durations`, less the event. -/
structure DurationRow where
  start_time : ℤ
  end_time : ℤ
  duration : ℤ
  sla_duration : ℤ
  timeperiod_id : ℕ
  timeperiod_is_default : Bool
  deriving DecidableEq

structure BaRow where
  ba_id : ℕ
  ba_name : List Char
  ba_description : List Char
  sla_month_percent_crit : ℚ
  sla_month_percent_warn : ℚ
  sla_month_duration_crit : ℚ
  sla_month_duration_warn : ℚ
  deriving DecidableEq

structure BvRow where
  bv_id : ℕ
  bv_name : List Char
  bv_description : List Char
  deriving DecidableEq

structure BaBvRow where
  ba_id : ℕ
  bv_id : ℕ
  deriving DecidableEq

structure KpiRow where
  kpi_id : ℕ
  kpi_name : List Char
  ba_id : ℕ
  ba_name : List Char
  host_id : ℕ
  host_name : List Char
  service_id : ℕ
  service_description : List Char
  kpi_ba_id : Option ℕ
  kpi_ba_name : List Char
  meta_service_id : ℕ
  meta_service_name : List Char
  impact_warning : ℚ
  impact_critical : ℚ
  impact_unknown : ℚ
  boolean_id : ℕ
  boolean_name : List Char
  deriving DecidableEq

structure TimeperiodRow where
  timeperiod_id : ℕ
  name : List Char
  sunday : List Char
  monday : List Char
  tuesday : List Char
  wednesday : List Char
  thursday : List Char
  friday : List Char
  saturday : List Char
  deriving DecidableEq

structure TimeperiodExceptionRow where
  timeperiod_id : ℕ
  daterange : List Char
  timerange : List Char
  deriving DecidableEq

structure TimeperiodExclusionRow where
  timeperiod_id : ℕ
  excluded_timeperiod_id : ℕ
  deriving DecidableEq

structure BaTimeperiodRow where
  ba_id : ℕ
  timeperiod_id : ℕ
  is_default : Bool
  deriving DecidableEq

/-- The dimension tables. -/
structure Dimensions where
  ba : List BaRow
  bv : List BvRow
  relations_ba_bv : List BaBvRow
  kpi : List KpiRow
  timeperiods : List TimeperiodRow
  timeperiods_exceptions : List TimeperiodExceptionRow
  timeperiods_exclusions : List TimeperiodExclusionRow
  relations_ba_timeperiods : List BaTimeperiodRow
  deriving DecidableEq

/-- The reporting tables. A row whose key is generated comes with it, and the last key that was
generated is beside the rows. -/
structure Tables where
  ba_events : List (ℕ × BaEventRow)
  last_ba_event_id : ℕ
  kpi_events : List (ℕ × KpiEventRow)
  last_kpi_event_id : ℕ
  /-- `relation_id`, `ba_event_id` and `kpi_event_id`. -/
  relations_ba_kpi_events : List (ℕ × ℕ × ℕ)
  last_relation_id : ℕ
  /-- `ba_event_id`, and the other columns. -/
  ba_events_durations : List (ℕ × DurationRow)
  dimensions : Dimensions

/-! ## Dimension tables -/

/-- The tables that a closing signal empties. -/
inductive Truncated where
  | kpi
  | relations_ba_bv
  | ba
  | bv
  | timeperiods
  deriving DecidableEq

/-- A row to be inserted in one of the dimension tables. -/
inductive DimensionRow where
  | ba (row : BaRow)
  | bv (row : BvRow)
  | relation_ba_bv (row : BaBvRow)
  | kpi (row : KpiRow)
  | timeperiod (row : TimeperiodRow)
  | timeperiod_exception (row : TimeperiodExceptionRow)
  | timeperiod_exclusion (row : TimeperiodExclusionRow)
  | relation_ba_timeperiod (row : BaTimeperiodRow)
  deriving DecidableEq

namespace Dimensions

def new : Dimensions := ⟨[], [], [], [], [], [], [], []⟩

def hasBa (d : Dimensions) (ba_id : ℕ) : Bool := d.ba.any fun row => row.ba_id = ba_id

def hasBv (d : Dimensions) (bv_id : ℕ) : Bool := d.bv.any fun row => row.bv_id = bv_id

def hasTimeperiod (d : Dimensions) (timeperiod_id : ℕ) : Bool :=
  d.timeperiods.any fun row => row.timeperiod_id = timeperiod_id

/-- `DELETE FROM` a table, with the `ON DELETE CASCADE` of the tables that refer to it. -/
def truncate (d : Dimensions) : Truncated → Dimensions
  | .kpi => { d with kpi := [] }
  | .relations_ba_bv => { d with relations_ba_bv := [] }
  | .ba => { d with
      ba := []
      kpi := d.kpi.filter fun row => !d.hasBa row.ba_id && !row.kpi_ba_id.any d.hasBa
      relations_ba_bv := d.relations_ba_bv.filter fun row => !d.hasBa row.ba_id
      relations_ba_timeperiods := d.relations_ba_timeperiods.filter fun row => !d.hasBa row.ba_id }
  | .bv => { d with
      bv := []
      relations_ba_bv := d.relations_ba_bv.filter fun row => !d.hasBv row.bv_id }
  | .timeperiods => { d with
      timeperiods := []
      timeperiods_exceptions :=
        d.timeperiods_exceptions.filter fun row => !d.hasTimeperiod row.timeperiod_id
      timeperiods_exclusions := d.timeperiods_exclusions.filter fun row =>
        !d.hasTimeperiod row.timeperiod_id && !d.hasTimeperiod row.excluded_timeperiod_id
      relations_ba_timeperiods :=
        d.relations_ba_timeperiods.filter fun row => !d.hasTimeperiod row.timeperiod_id }

/-- The primary, unique and foreign keys of the schema. -/
def accepts (d : Dimensions) : DimensionRow → Bool
  | .ba row => d.ba.all fun r => r.ba_id ≠ row.ba_id ∧ r.ba_name ≠ row.ba_name
  | .bv row => d.bv.all fun r => r.bv_id ≠ row.bv_id ∧ r.bv_name ≠ row.bv_name
  | .relation_ba_bv row => d.hasBa row.ba_id && d.hasBv row.bv_id
  | .kpi row => (d.kpi.all fun r => r.kpi_id ≠ row.kpi_id) && d.hasBa row.ba_id &&
      row.kpi_ba_id.all d.hasBa
  | .timeperiod row => !d.hasTimeperiod row.timeperiod_id
  | .timeperiod_exception row => d.hasTimeperiod row.timeperiod_id
  | .timeperiod_exclusion row =>
    d.hasTimeperiod row.timeperiod_id && d.hasTimeperiod row.excluded_timeperiod_id
  | .relation_ba_timeperiod row => d.hasBa row.ba_id && d.hasTimeperiod row.timeperiod_id

def add (d : Dimensions) : DimensionRow → Dimensions
  | .ba row => { d with ba := d.ba ++ [row] }
  | .bv row => { d with bv := d.bv ++ [row] }
  | .relation_ba_bv row => { d with relations_ba_bv := d.relations_ba_bv ++ [row] }
  | .kpi row => { d with kpi := d.kpi ++ [row] }
  | .timeperiod row => { d with timeperiods := d.timeperiods ++ [row] }
  | .timeperiod_exception row =>
    { d with timeperiods_exceptions := d.timeperiods_exceptions ++ [row] }
  | .timeperiod_exclusion row =>
    { d with timeperiods_exclusions := d.timeperiods_exclusions ++ [row] }
  | .relation_ba_timeperiod row =>
    { d with relations_ba_timeperiods := d.relations_ba_timeperiods ++ [row] }

/-- `INSERT INTO` a table, if no key is violated. -/
def insert (d : Dimensions) (row : DimensionRow) : Option Dimensions :=
  if d.accepts row then some (d.add row) else none

end Dimensions

/-! ## Statements -/

inductive Statement where
  | ba_event_update (row : BaEventRow)
  | ba_full_event_insert (row : BaEventRow)
  | ba_duration_event_update (row : DurationRow) (ba_id : ℕ) (real_start_time : ℤ)
  | ba_duration_event_insert (row : DurationRow) (ba_id : ℕ) (real_start_time : ℤ)
  | kpi_event_update (row : KpiEventRow)
  | kpi_full_event_insert (row : KpiEventRow)
  | kpi_event_link (kpi_id : ℕ) (start_time : ℤ) (ba_id : ℕ)
  | kpi_event_link_update (ba_event_id relation_id : ℕ)
  | dimension_truncate (table : Truncated)
  | dimension_insert (row : DimensionRow)
  /-- Of `_process_rebuild`. -/
  | delete_durations (bas : List ℕ)
  /-- Of `_close_inconsistent_events`. -/
  | close_ba_event (ba_id : ℕ) (start_time end_time : ℤ)
  | close_kpi_event (kpi_id : ℕ) (start_time end_time : ℤ)
  /-- Of `_close_all_events`. -/
  | close_ba_events (now : ℤ)
  | close_kpi_events (now : ℤ)
  deriving DecidableEq

/-- What is asked of a statement that was run. -/
structure Answer where
  affected_rows : ℕ
  last_insert_id : ℕ

namespace BaEventRow

/-- `ba_id=? AND start_time=?`. -/
def Matches (row : BaEventRow) (ba_id : ℕ) (start_time : ℤ) : Prop :=
  row.ba_id = ba_id ∧ row.start_time = start_time

instance (row : BaEventRow) (ba_id : ℕ) (start_time : ℤ) :
    Decidable (row.Matches ba_id start_time) :=
  inferInstanceAs (Decidable (_ ∧ _))

/-- The event contains a time: what a KPI event is joined on. -/
def Contains (row : BaEventRow) (t : ℤ) : Prop :=
  row.start_time ≤ t ∧ ∀ end_time ∈ row.end_time, t < end_time

instance (row : BaEventRow) (t : ℤ) : Decidable (row.Contains t) :=
  inferInstanceAs (Decidable (_ ∧ _))

end BaEventRow

/-- `kpi_id=? AND start_time=?`. -/
def KpiEventRow.Matches (row : KpiEventRow) (kpi_id : ℕ) (start_time : ℤ) : Prop :=
  row.kpi_id = kpi_id ∧ row.start_time = start_time

instance (row : KpiEventRow) (kpi_id : ℕ) (start_time : ℤ) :
    Decidable (row.Matches kpi_id start_time) :=
  inferInstanceAs (Decidable (_ ∧ _))

namespace Tables

def new : Tables := ⟨[], 0, [], 0, [], 0, [], Dimensions.new⟩

/-- The keys of the events of a BA that start at a time. -/
def baEventIds (t : Tables) (ba_id : ℕ) (start_time : ℤ) : List ℕ :=
  (t.ba_events.filter fun e => e.2.Matches ba_id start_time).map (·.1)

/-- The pairs of a BA event and a KPI event that `_kpi_event_link` selects. -/
def linked (t : Tables) (kpi_id : ℕ) (start_time : ℤ) (ba_id : ℕ) : List (ℕ × ℕ) :=
  (t.kpi_events.filter fun ke => ke.2.Matches kpi_id start_time).flatMap fun ke =>
    (t.ba_events.filter fun be => be.2.ba_id = ba_id ∧ be.2.Contains ke.2.start_time).map
      fun be => (be.1, ke.1)

/-- What a statement does to the tables, and what can be asked of it. -/
def exec (t : Tables) : Statement → Option (Answer × Tables)
  | .ba_event_update row =>
    some (⟨t.ba_events.countP fun e => e.2.Matches row.ba_id row.start_time, 0⟩,
      { t with ba_events := t.ba_events.map fun e =>
          if e.2.Matches row.ba_id row.start_time then (e.1, row) else e })
  | .ba_full_event_insert row =>
    some (⟨1, t.last_ba_event_id + 1⟩, { t with
      ba_events := t.ba_events ++ [(t.last_ba_event_id + 1, row)]
      last_ba_event_id := t.last_ba_event_id + 1 })
  | .ba_duration_event_update row ba_id real_start_time =>
    let updated (d : ℕ × DurationRow) : Bool :=
      d.1 ∈ t.baEventIds ba_id real_start_time ∧ d.2.timeperiod_id = row.timeperiod_id
    some (⟨t.ba_events_durations.countP updated, 0⟩, { t with
      ba_events_durations := t.ba_events_durations.map fun d =>
        if updated d then (d.1, row) else d })
  | .ba_duration_event_insert row ba_id real_start_time =>
    let ids := t.baEventIds ba_id real_start_time
    -- `UNIQUE (ba_event_id, timeperiod_id)`
    if t.ba_events_durations.any fun d =>
        d.1 ∈ ids ∧ d.2.timeperiod_id = row.timeperiod_id then none
    else some (⟨ids.length, 0⟩, { t with
      ba_events_durations := t.ba_events_durations ++ ids.map fun id => (id, row) })
  | .kpi_event_update row =>
    some (⟨t.kpi_events.countP fun e => e.2.Matches row.kpi_id row.start_time, 0⟩,
      { t with kpi_events := t.kpi_events.map fun e =>
          if e.2.Matches row.kpi_id row.start_time then (e.1, row) else e })
  | .kpi_full_event_insert row =>
    some (⟨1, t.last_kpi_event_id + 1⟩, { t with
      kpi_events := t.kpi_events ++ [(t.last_kpi_event_id + 1, row)]
      last_kpi_event_id := t.last_kpi_event_id + 1 })
  | .kpi_event_link kpi_id start_time ba_id =>
    let links := t.linked kpi_id start_time ba_id
    some (⟨links.length, if links.isEmpty then 0 else t.last_relation_id + 1⟩, { t with
      relations_ba_kpi_events := t.relations_ba_kpi_events ++
        links.zipIdx.map fun link => (t.last_relation_id + 1 + link.2, link.1)
      last_relation_id := t.last_relation_id + links.length })
  | .kpi_event_link_update ba_event_id relation_id =>
    some (⟨t.relations_ba_kpi_events.countP fun r => r.1 = relation_id, 0⟩, { t with
      relations_ba_kpi_events := t.relations_ba_kpi_events.map fun r =>
        if r.1 = relation_id then (r.1, ba_event_id, r.2.2) else r })
  | .dimension_truncate table =>
    some (⟨0, 0⟩, { t with dimensions := t.dimensions.truncate table })
  | .dimension_insert row =>
    (t.dimensions.insert row).map fun dimensions => (⟨1, 0⟩, { t with dimensions := dimensions })
  | .delete_durations bas =>
    let deleted (d : ℕ × DurationRow) : Bool :=
      t.ba_events.any fun e => e.1 = d.1 ∧ e.2.ba_id ∈ bas
    some (⟨t.ba_events_durations.countP deleted, 0⟩, { t with
      ba_events_durations := t.ba_events_durations.filter fun d => !deleted d })
  | .close_ba_event ba_id start_time end_time =>
    some (⟨t.ba_events.countP fun e => e.2.Matches ba_id start_time, 0⟩, { t with
      ba_events := t.ba_events.map fun e =>
        if e.2.Matches ba_id start_time then (e.1, { e.2 with end_time := some end_time }) else e })
  | .close_kpi_event kpi_id start_time end_time =>
    some (⟨t.kpi_events.countP fun e => e.2.Matches kpi_id start_time, 0⟩, { t with
      kpi_events := t.kpi_events.map fun e =>
        if e.2.Matches kpi_id start_time then (e.1, { e.2 with end_time := some end_time })
        else e })
  | .close_ba_events now =>
    some (⟨t.ba_events.countP fun e => e.2.end_time = none, 0⟩, { t with
      ba_events := t.ba_events.map fun e =>
        (e.1, { e.2 with end_time := some (e.2.end_time.getD now) }) })
  | .close_kpi_events now =>
    some (⟨t.kpi_events.countP fun e => e.2.end_time = none, 0⟩, { t with
      kpi_events := t.kpi_events.map fun e =>
        (e.1, { e.2 with end_time := some (e.2.end_time.getD now) }) })

end Tables

/-- The database, as the connection of the stream sees it. -/
abbrev Database := Mysql.Session Tables Statement

end CentreonBroker.Bam
