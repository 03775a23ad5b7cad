import CentreonBroker.Lib.Decimal
import Mathlib.Data.Rat.Floor
import Mathlib.Logic.Function.Basic

/-!
# The RRD output

Each value updates the file of its graph, which is created when it does not exist. Between the
start and the end of the rebuild of a graph its live values are put aside, and written at the
end. The backend is a set of files, each with the updates it was given; none of its calls
fails. How a double is printed is a parameter.
-/

namespace CentreonBroker.Rrd

/-! ## Events -/

structure Metric where
  ctime : ℤ
  interval : ℕ
  is_for_rebuild : Bool
  metric_id : ℕ
  rrd_len : ℤ
  value : ℚ
  value_type : ℤ
  deriving DecidableEq

structure Status where
  ctime : ℤ
  index_id : ℕ
  interval : ℕ
  is_for_rebuild : Bool
  rrd_len : ℤ
  state : ℤ
  deriving DecidableEq

/-- The two kinds of graphs. An index has a status graph. -/
inductive Kind where
  | metrics | status
  deriving DecidableEq

/-- What is written in a file, or put aside for it. -/
inductive Value where
  | metric (e : Metric)
  | status (e : Status)
  deriving DecidableEq

structure Rebuild where
  ends : Bool
  id : ℕ
  is_index : Bool
  deriving DecidableEq

structure RemoveGraph where
  id : ℕ
  is_index : Bool
  deriving DecidableEq

inductive Event where
  | value (v : Value)
  | rebuild (e : Rebuild)
  | remove_graph (e : RemoveGraph)
  /-- An event of another type. -/
  | other
  deriving DecidableEq

/-- `e->is_index ? _status… : _metrics…`. -/
def kindOf (is_index : Bool) : Kind := if is_index then .status else .metrics

/-! ## The backend -/

structure RrdFile where
  length : ℤ
  from_time : ℤ
  step : ℕ
  value_type : Option ℤ
  updates : List (ℤ × List Char)
  deriving DecidableEq

structure Backend where
  filename : List Char
  files : List Char → Option RrdFile

namespace Backend

/-- `open` of a file, which throws when it does not exist. -/
def open_file (path : List Char) (b : Backend) : Option Backend :=
  (b.files path).map fun _ => { b with filename := path }

/-- `open` of a file that is created. -/
def open_new (path : List Char) (length from_time : ℤ) (step : ℕ) (value_type : Option ℤ)
    (b : Backend) : Backend :=
  { filename := path
    files := Function.update b.files path (some ⟨length, from_time, step, value_type, []⟩) }

/-- `update` of the file that is open. An empty text, that of a status other than 0, 1 and 2, counts as
one too, although `lib::update` ignores it. -/
def update (time : ℤ) (value : List Char) (b : Backend) : Backend :=
  { b with
    files := Function.update b.files b.filename ((b.files b.filename).map fun f =>
      { f with updates := f.updates ++ [(time, value)] }) }

def remove (path : List Char) (b : Backend) : Backend :=
  { b with files := Function.update b.files path none }

/-- What a file was updated with since it was created. -/
def updates (b : Backend) (path : List Char) : List (ℤ × List Char) :=
  ((b.files path).map RrdFile.updates).getD []

end Backend

/-! ## Values -/

namespace Value

def kind : Value → Kind
  | metric _ => .metrics
  | status _ => .status

def id : Value → ℕ
  | metric e => e.metric_id
  | status e => e.index_id

def ctime : Value → ℤ
  | metric e => e.ctime
  | status e => e.ctime

def is_for_rebuild : Value → Bool
  | metric e => e.is_for_rebuild
  | status e => e.is_for_rebuild

/-- `e->interval ? e->interval : 60`. -/
def interval : Value → ℕ
  | metric e => if e.interval ≠ 0 then e.interval else 60
  | status e => if e.interval ≠ 0 then e.interval else 60

def rrd_len : Value → ℤ
  | metric e => e.rrd_len
  | status e => e.rrd_len

/-- The type that a file is created with. That of a status is left to the backend. -/
def value_type : Value → Option ℤ
  | metric e => some e.value_type
  | status _ => none

/-- `static_cast<int64_t>`, which drops the fraction. -/
def truncate (q : ℚ) : ℤ := if 0 ≤ q then ⌊q⌋ else ⌈q⌉

/-- An integer in an output stream. -/
def showInt (n : ℤ) : List Char :=
  if n < 0 then '-' :: Decimal.digits n.natAbs else Decimal.digits n.natAbs

/-- The text of the value. The types are 0 for a gauge, then counter, derive and absolute. -/
def text (fixed : ℚ → List Char) : Value → List Char
  | metric e =>
    if e.value_type = 0 then fixed e.value
    else if e.value_type = 1 then showInt (truncate e.value)
    else if e.value_type = 2 then showInt (truncate e.value)
    else if e.value_type = 3 then showInt (truncate e.value)
    else fixed e.value
  | status e =>
    if e.state = 0 then "100".toList
    else if e.state = 1 then "75".toList
    else if e.state = 2 then "0".toList
    else []

/-- What the backend is given. -/
def update (fixed : ℚ → List Char) (v : Value) : ℤ × List Char := (v.ctime, v.text fixed)

end Value

/-! ## The connector -/

/-- The fields of `connector` that the output depends on. -/
structure Connector where
  metrics_path : List Char
  status_path : List Char
  write_metrics : Bool
  write_status : Bool

namespace Connector

/-- `_real_path_of`. The path that `realpath` resolves, or the path itself, with a last slash. -/
def real_path_of (realpath : List Char → Option (List Char)) (path : List Char) : List Char :=
  let retval := (realpath path).getD path
  if retval ≠ [] ∧ retval.getLast? ≠ some '/' then retval ++ ['/'] else retval

/-- What `factory::new_endpoint` sets. A path is set when its graphs are written. -/
def new_endpoint (realpath : List Char → Option (List Char)) (metrics_path status_path : List Char)
    (write_metrics write_status : Bool) : Connector where
  metrics_path := if write_metrics then real_path_of realpath metrics_path else []
  status_path := if write_status then real_path_of realpath status_path else []
  write_metrics := write_metrics
  write_status := write_status

end Connector

/-! ## The output -/

/-- A pair of fields, one for the metrics and one for the status, is a function of the kind. -/
structure Output where
  path : Kind → List Char
  rebuild : Kind → List Char → Option (List Value)
  writes : Kind → Bool
  backend : Backend

/-- `connector::open`. -/
def Connector.open_output (c : Connector) (backend : Backend) : Output where
  path
    | .metrics => c.metrics_path
    | .status => c.status_path
  rebuild := fun _ _ => none
  writes
    | .metrics => c.write_metrics
    | .status => c.write_status
  backend := backend

namespace Output

/-- `fmt::format("{}{}.rrd", path, id)`. -/
def file (s : Output) (kind : Kind) (id : ℕ) : List Char :=
  s.path kind ++ (Decimal.digits id ++ ".rrd".toList)

/-- A rebuild cache, with another list for a path. -/
def setRebuild (kind : Kind) (path : List Char) (l : Option (List Value)) (s : Output) : Output :=
  { s with rebuild := Function.update s.rebuild kind (Function.update (s.rebuild kind) path l) }

/-- The cases of a metric and of a status in `write`. -/
def write_value (fixed : ℚ → List Char) (v : Value) (s : Output) : Output :=
  if s.writes v.kind then
    let path := s.file v.kind v.id
    match v.is_for_rebuild, s.rebuild v.kind path with
    | false, some l => s.setRebuild v.kind path (some (l ++ [v]))
    | _, _ =>
      let backend := (s.backend.open_file path).getD
        (s.backend.open_new path v.rrd_len (v.ctime - 1) v.interval v.value_type)
      { s with backend := backend.update v.ctime (v.text fixed) }
  else s

/-- The start of a rebuild. A list that is already there is kept. -/
def start_rebuild (e : Rebuild) (s : Output) : Output :=
  let kind := kindOf e.is_index
  let path := s.file kind e.id
  let s := s.setRebuild kind path (some ((s.rebuild kind path).getD []))
  { s with backend := s.backend.remove path }

/-- The end of a rebuild. What was put aside is written, as it would be when it arrives. -/
def end_rebuild (fixed : ℚ → List Char) (e : Rebuild) (s : Output) : Output :=
  let kind := kindOf e.is_index
  let path := s.file kind e.id
  let l := (s.rebuild kind path).getD []
  l.foldl (fun s v => s.write_value fixed v) (s.setRebuild kind path none)

def remove_graph (e : RemoveGraph) (s : Output) : Output :=
  let kind := kindOf e.is_index
  let path := s.file kind e.id
  let s := s.setRebuild kind path none
  { s with backend := s.backend.remove path }

/-- `write`, which acknowledges one event. A null event is refused. -/
def write (fixed : ℚ → List Char) (d : Option Event) (s : Output) : ℕ × Output :=
  match d with
  | none => (1, s)
  | some (.value v) => (1, s.write_value fixed v)
  | some (.rebuild e) => (1, if e.ends then s.end_rebuild fixed e else s.start_rebuild e)
  | some (.remove_graph e) => (1, s.remove_graph e)
  | some .other => (1, s)

/-- A run of the output. -/
def run (fixed : ℚ → List Char) (s : Output) (es : List (Option Event)) : Output :=
  es.foldl (fun s d => (s.write fixed d).2) s

end Output

end CentreonBroker.Rrd
