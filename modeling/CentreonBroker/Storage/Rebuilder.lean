import CentreonBroker.Database.Bind
import CentreonBroker.Mysql.Connection
import Mathlib.Algebra.Order.Floor.Semiring
import Mathlib.Data.List.Sort
import Mathlib.Data.Rat.Floor

/-!
# The rebuilder

The thread takes an index that is flagged to be rebuilt, publishes the data of its metrics and its
status again, and clears the flag. Any call to the database may fail, and the thread may be asked to
exit whenever it looks.

What a call is answered and what the thread sees when it looks is given from outside.
-/

namespace CentreonBroker.Storage

open Database (Floating)

namespace Rebuilder

/-- The configuration of the rebuilder. -/
structure Config where
  intervalLength : ℕ
  /-- `_rrd_len`. -/
  rrdLen : BitVec 32
  /-- `FLT_MAX * 0.999`. -/
  limit : ℚ

/-! ## The tables -/

structure IndexRow where
  hostId : ℕ
  serviceId : ℕ
  rrdRetention : BitVec 32
  mustBeRebuilt : ℕ
  deriving DecidableEq

structure MetricRow where
  metricId : ℕ
  indexId : ℕ
  metricName : List Char
  dataSourceType : List Char
  deriving DecidableEq

structure DataRow where
  idMetric : ℕ
  ctime : ℤ
  value : Option Floating
  status : ℤ
  deriving DecidableEq

/-- The tables that are read. `metrics` has a primary key. -/
structure Tables where
  indexData : ℕ → Option IndexRow
  metrics : List MetricRow
  dataBin : List DataRow
  /-- `check_interval`, by the host, or by the host and the service. -/
  hosts : List (ℕ × ℚ)
  services : List ((ℕ × ℕ) × ℚ)
  nodup : (metrics.map MetricRow.metricId).Nodup

/-- An `UPDATE` of the flag of an index. -/
def Tables.flag (t : Tables) (id state : ℕ) : Tables :=
  { t with indexData := fun i =>
      if i = id then (t.indexData i).map ({ · with mustBeRebuilt := state }) else t.indexData i }

def Tables.flagOf (t : Tables) (id : ℕ) : Option ℕ := (t.indexData id).map (·.mustBeRebuilt)

/-- The metrics of an index. -/
def Tables.metricsOf (t : Tables) (id : ℕ) : List MetricRow := t.metrics.filter (·.indexId = id)

/-- The data of a metric from a time on. -/
def Tables.dataOf (t : Tables) (metric : ℕ) (start : ℤ) : List DataRow :=
  t.dataBin.filter fun d => d.idMetric = metric ∧ start ≤ d.ctime

/-- The data of an index, joined from its metrics. -/
def Tables.joined (t : Tables) (id : ℕ) (start : ℤ) : List DataRow :=
  (t.metricsOf id).flatMap fun m => t.dataOf m.metricId start

/-- `ORDER BY ctime ASC`. -/
def byTime (rows : List DataRow) : List DataRow := rows.insertionSort fun c d => c.ctime ≤ d.ctime

/-! ## What is published -/

structure Metric where
  hostId : ℕ
  serviceId : ℕ
  name : List Char
  ctime : ℕ
  interval : ℕ
  isForRebuild : Bool
  metricId : ℕ
  rrdLen : ℤ
  value : Floating
  valueType : ℤ
  deriving DecidableEq

structure Status where
  ctime : ℕ
  indexId : ℕ
  interval : ℕ
  isForRebuild : Bool
  rrdLen : ℕ
  state : BitVec 16
  deriving DecidableEq

inductive Event where
  | rebuild (ends : Bool) (id : ℕ) (isIndex : Bool)
  | metric (m : Metric)
  | status (s : Status)
  deriving DecidableEq

/-! ## Calls to the database -/

/-- How a part of the work ends. -/
inductive Ending where
  | finished
  /-- The thread saw that it should exit. -/
  | exit
  /-- A call failed; the connection may be lost. -/
  | thrown (gone : Bool)
  deriving DecidableEq

/-- What comes next, unless an exception goes on. It is told whether the thread should exit. -/
def Ending.andThen (e : Ending) (next : Bool → Ending) : Ending :=
  match e with
  | thrown gone => thrown gone
  | finished => next false
  | exit => next true

/-- The same for a part of the work, with what it publishes. -/
def andThen (r : List Event × Ending) (next : Bool → List Event × Ending) : List Event × Ending :=
  match r.2 with
  | .thrown gone => (r.1, .thrown gone)
  | .finished => (r.1 ++ (next false).1, (next false).2)
  | .exit => (r.1 ++ (next true).1, (next true).2)

/-- The answers to a query with a result, what is seen in the loop that fetches the rows, and the
time. -/
structure Select where
  query : Mysql.Outcome
  fetch : ℕ → Mysql.Outcome
  exit : ℕ → Bool
  now : ℤ

/-- The loop `while (!_should_exit && ms.fetch_row(res))`, at the `k`-th row. -/
def Select.loop {α : Type} (s : Select) (exiting : Bool) : ℕ → List α → List α × Ending
  | k, rows =>
    if exiting ∨ s.exit k then ([], .exit)
    else if s.fetch k ≠ .ok then ([], .thrown (s.fetch k = .gone))
    else
      match rows with
      | [] => ([], .finished)
      | row :: rows =>
        let (read, ending) := s.loop exiting (k + 1) rows
        (row :: read, ending)
termination_by structural _ rows => rows

/-- A query and the loop behind it. -/
def Select.read {α : Type} (s : Select) (exiting : Bool) (rows : List α) : List α × Ending :=
  if s.query ≠ .ok then ([], .thrown (s.query = .gone)) else s.loop exiting 0 rows

/-- All that is given from outside while an index is rebuilt. -/
structure Env where
  /-- The query for the check interval and its row. -/
  interval : Mysql.Outcome
  /-- The first `UPDATE`. -/
  mark : Mysql.Outcome
  metrics : Select
  /-- What is seen in front of a metric. -/
  browse : ℕ → Bool
  metric : ℕ → Select
  status : Select
  /-- The `UPDATE` in the handler of exceptions. -/
  unmark : Mysql.Outcome
  exitLast : Bool
  /-- The last `UPDATE`. -/
  last : Mysql.Outcome

/-! ## The work -/

section

variable (cfg : Config) (t : Tables) (env : Env) (id : ℕ) (row : IndexRow)

/-- The length of the files of the index. -/
def rrdLength : BitVec 32 := if row.rrdRetention = 0 then cfg.rrdLen else row.rrdRetention

/-- The check interval of the host or of the service in seconds, without a fraction. -/
def foundInterval : ℤ :=
  let found := if row.serviceId = 0 then t.hosts.lookup row.hostId
    else t.services.lookup (row.hostId, row.serviceId)
  let interval := found.getD 0 * cfg.intervalLength
  if interval < 0 then ⌈interval⌉ else ⌊interval⌋

/-- `check_interval`. The conversion of what no `uint32_t` holds is undefined: here it is modulo. -/
def checkInterval : ℕ :=
  let interval := (BitVec.ofInt 32 (foundInterval cfg t row)).toNat
  if interval = 0 then 5 * 60 else interval

/-- What `FLT_MAX` is written as. -/
def clamp : Floating → Floating
  | .finite q =>
    if cfg.limit < q then .infinite false
    else if q < -cfg.limit then .infinite true
    else .finite q
  | v => v

/-- `value_as_f64`, which reads a null as zero. -/
def published (d : DataRow) : Floating := clamp cfg (d.value.getD (.finite 0))

/-- `value_as_u32`. -/
def time (d : DataRow) : ℕ := (BitVec.ofInt 32 d.ctime).toNat

def metricEvent (m : MetricRow) (d : DataRow) : Metric :=
  { hostId := row.hostId
    serviceId := row.serviceId
    name := m.metricName
    ctime := time d
    interval := checkInterval cfg t row
    isForRebuild := true
    metricId := m.metricId
    rrdLen := (rrdLength cfg row).toInt
    value := published cfg d
    valueType := (m.dataSourceType.head?.elim 0 fun c => (c.toNat : ℤ)) - '0'.toNat }

def statusEvent (d : DataRow) : Status :=
  { ctime := time d
    indexId := id
    interval := checkInterval cfg t row
    isForRebuild := true
    rrdLen := cfg.rrdLen.toNat
    state := BitVec.ofInt 16 d.status }

/-- The rows of a metric, and those of the status. -/
def metricRows (m : MetricRow) : List DataRow :=
  t.dataOf m.metricId ((env.metric m.metricId).now - (rrdLength cfg row).toNat)

def statusRows : List DataRow :=
  t.joined id (env.status.now - (rrdLength cfg row).toNat)

/-- `_rebuild_metric`. An exception is thrown again behind the end. -/
def rebuild_metric (exiting : Bool) (m : MetricRow) : List Event × Ending :=
  let (rows, ending) :=
    (env.metric m.metricId).read exiting (byTime (metricRows cfg t env row m))
  let values := rows.map fun d => Event.metric (metricEvent cfg t row m d)
  match ending with
  | .thrown gone =>
    (.rebuild false m.metricId false :: values ++ [.rebuild true m.metricId false], .thrown gone)
  | ending =>
    (.rebuild false m.metricId false :: values ++ [.rebuild true m.metricId false], ending)

/-- `_rebuild_status`. -/
def rebuild_status (exiting : Bool) : List Event × Ending :=
  let (rows, ending) := env.status.read exiting (byTime (statusRows cfg t env id row))
  let values := rows.map fun d => Event.status (statusEvent cfg t id row d)
  match ending with
  | .thrown gone => (.rebuild false id true :: values ++ [.rebuild true id true], .thrown gone)
  | ending => (.rebuild false id true :: values ++ [.rebuild true id true], ending)

/-- The loop over the metrics. -/
def rebuild_metrics (exiting : Bool) : List MetricRow → List Event × Ending
  | [] => ([], if exiting then .exit else .finished)
  | m :: ms =>
    if exiting ∨ env.browse m.metricId then ([], .exit)
    else andThen (rebuild_metric cfg t env row exiting m) fun exiting => rebuild_metrics exiting ms

/-- What is tried between the first `UPDATE` and the last one. -/
def rebuild_all : List Event × Ending :=
  let (ms, ending) := env.metrics.read false (t.metricsOf id)
  andThen ([], ending) fun exiting =>
    andThen (rebuild_metrics cfg t env row exiting ms) fun exiting =>
      rebuild_status cfg t env id row exiting

/-- What follows the `try`: the handler of exceptions, or the last `UPDATE`. A connection that is
lost lets no further call pass. -/
def conclude (marked : Tables) (r : List Event × Ending) : List Event × Tables :=
  match r.2 with
  | .thrown gone => (r.1, if ¬ gone ∧ env.unmark = .ok then marked.flag id 1 else marked)
  | ending =>
    let state := if ending = .exit ∨ env.exitLast then 1 else 0
    (r.1, if env.last = .ok then marked.flag id state else marked)

/-- `_run`, for an index that it took: what is published, and the tables behind it. -/
def rebuild : List Event × Tables :=
  if env.interval ≠ .ok then ([], t)
  else if env.mark = .gone then conclude env id t ([], .thrown true)
  else
    conclude env id (if env.mark = .ok then t.flag id 2 else t) (rebuild_all cfg t env id row)

end

end Rebuilder

end CentreonBroker.Storage
