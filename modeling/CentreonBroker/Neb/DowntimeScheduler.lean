import CentreonBroker.Lib.Runs
import CentreonBroker.Neb.Downtime
import Mathlib.Data.List.Nodup
import Mathlib.Logic.Function.Basic

/-!
# The downtime scheduler

`downtime_scheduler` has the downtimes by their internal ids, and the ids by the times that these
are to be started at and by the times that they are to be ended at. A pass of its thread publishes
what is due. The indexes accept an id twice, and a downtime that is looked up and is not there is
made.
-/

namespace CentreonBroker.Neb

/-- The ids by their times, in the order of a multimap. -/
structure TimeIndex where
  entries : List (Int × UInt32)
  sorted : entries.Pairwise (·.1 ≤ ·.1)

namespace TimeIndex

def empty : TimeIndex := ⟨[], .nil⟩

/-- `insert`: behind what has the same time. -/
def insert (x : TimeIndex) (t : Int) (id : UInt32) : TimeIndex where
  entries := x.entries.filter (·.1 ≤ t) ++ (t, id) :: x.entries.filter (t < ·.1)
  sorted := by
    have hlow : ∀ e ∈ x.entries.filter (·.1 ≤ t), e.1 ≤ t :=
      fun e he => of_decide_eq_true (List.mem_filter.mp he).2
    have hhigh : ∀ e ∈ x.entries.filter (t < ·.1), t < e.1 :=
      fun e he => of_decide_eq_true (List.mem_filter.mp he).2
    refine List.pairwise_append.mpr ⟨x.sorted.filter _, ?_, ?_⟩
    · exact List.pairwise_cons.mpr ⟨fun e he => Int.le_of_lt (hhigh e he), x.sorted.filter _⟩
    · intro e he e' he'
      rcases List.mem_cons.mp he' with rfl | he'
      · exact hlow e he
      · exact Int.le_trans (hlow e he) (Int.le_of_lt (hhigh e' he'))

/-- All entries of an id are erased. -/
def remove (x : TimeIndex) (id : UInt32) : TimeIndex where
  entries := x.entries.filter (·.2 ≠ id)
  sorted := x.sorted.filter _

/-- The entries that a pass goes over before it stops. -/
def due (x : TimeIndex) (now : Int) : List (Int × UInt32) := x.entries.takeWhile (·.1 ≤ now)

/-- The entries that it leaves. -/
def ahead (x : TimeIndex) (now : Int) : TimeIndex where
  entries := x.entries.dropWhile (·.1 ≤ now)
  sorted := x.sorted.sublist (List.dropWhile_sublist _)

end TimeIndex

/-- What is published, with the downtime as it is then. -/
inductive Published where
  | started (dwn : Downtime)
  | ended (dwn : Downtime)

def Published.dwn : Published → Downtime
  | .started dwn => dwn
  | .ended dwn => dwn

/-- Whether a downtime starts or ends. -/
inductive Change where
  | start
  | finish
  deriving DecidableEq, Repr

def Published.change : Published → Change
  | .started _ => .start
  | .ended _ => .finish

/-- What is published for an id. -/
def forId (id : UInt32) (pub : List Published) : List Published :=
  pub.filter (·.dwn.internalId = id)

/-- A downtime without what the scheduler writes in it. -/
def Downtime.plain (d : Downtime) : Downtime :=
  { d with actualStartTime := -1, actualEndTime := -1, wasStarted := false }

/-- `downtime_scheduler`. -/
structure Scheduler where
  downtimes : UInt32 → Option Downtime
  starts : TimeIndex
  ends : TimeIndex

namespace Scheduler

/-- The default constructor. -/
def empty : Scheduler := ⟨fun _ => none, .empty, .empty⟩

/-- `add_downtime`. -/
def addDowntime (s : Scheduler) (startTime endTime : Int) (dwn : Downtime) : Scheduler :=
  if dwn.startTime ≥ dwn.endTime then s
  else
    { downtimes := Function.update s.downtimes dwn.internalId (some dwn)
      starts :=
        if isNull dwn.actualStartTime then s.starts.insert startTime dwn.internalId else s.starts
      ends := if isNull dwn.actualEndTime then s.ends.insert endTime dwn.internalId else s.ends }

/-- `remove_downtime`. -/
def removeDowntime (s : Scheduler) (internalId : UInt32) : Scheduler :=
  if s.downtimes internalId = none then s
  else
    { downtimes := Function.update s.downtimes internalId none
      starts := s.starts.remove internalId
      ends := s.ends.remove internalId }

/-- `_downtimes[id]`: where there is none, a blank one is made. -/
def lookup (downtimes : UInt32 → Option Downtime) (id : UInt32) : Downtime :=
  (downtimes id).getD .blank

/-- `_start_downtime`, at this time. -/
def startDowntime (dwn : Downtime) (time : Int) : Downtime :=
  { dwn with actualStartTime := time, wasStarted := true }

/-- `_end_downtime`, at this time. -/
def endDowntime (dwn : Downtime) (time : Int) : Downtime := { dwn with actualEndTime := time }

/-- The first loop of `_process_downtimes`, over what is due, from the `k`th reading of the
clock. -/
def startLoop (clock : Nat → Int) : Nat → List (Int × UInt32) → (UInt32 → Option Downtime) →
    (UInt32 → Option Downtime) × List Published
  | _, [], downtimes => (downtimes, [])
  | k, e :: due, downtimes =>
    let dwn := startDowntime (lookup downtimes e.2) (clock k)
    let rest := startLoop clock (k + 1) due (Function.update downtimes e.2 (some dwn))
    (rest.1, .started dwn :: rest.2)

/-- What an iteration of the second loop leaves: the ended downtime is put back in the map, looked
up once more, and the id that it has is erased. -/
def eraseEnded (downtimes : UInt32 → Option Downtime) (id : UInt32) (dwn : Downtime) :
    UInt32 → Option Downtime :=
  let downtimes := Function.update downtimes id (some dwn)
  Function.update downtimes (lookup downtimes id).internalId none

/-- The second loop of `_process_downtimes`. -/
def endLoop (clock : Nat → Int) : Nat → List (Int × UInt32) → (UInt32 → Option Downtime) →
    (UInt32 → Option Downtime) × List Published
  | _, [], downtimes => (downtimes, [])
  | k, e :: due, downtimes =>
    let dwn := endDowntime (lookup downtimes e.2) (clock k)
    let rest := endLoop clock (k + 1) due (eraseEnded downtimes e.2 dwn)
    (rest.1, .ended dwn :: rest.2)

/-- `_process_downtimes`, where the clock has `now` at first. -/
def processDowntimes (s : Scheduler) (now : Int) (clock : Nat → Int) : Scheduler × List Published :=
  let started := startLoop clock 0 (s.starts.due now) s.downtimes
  let ended := endLoop clock (s.starts.due now).length (s.ends.due now) started.1
  (⟨ended.1, s.starts.ahead now, s.ends.ahead now⟩, started.2 ++ ended.2)

/-- What is done to a scheduler. -/
inductive Op where
  | addDowntime (startTime endTime : Int) (dwn : Downtime)
  | removeDowntime (internalId : UInt32)
  | processDowntimes (now : Int) (clock : Nat → Int)

def step (s : Scheduler) : Op → Scheduler
  | .addDowntime startTime endTime dwn => s.addDowntime startTime endTime dwn
  | .removeDowntime internalId => s.removeDowntime internalId
  | .processDowntimes now clock => (s.processDowntimes now clock).1

/-- What an operation publishes. -/
def publishes (s : Scheduler) : Op → List Published
  | .processDowntimes now clock => (s.processDowntimes now clock).2
  | _ => []

/-- What a run publishes. -/
def published (s : Scheduler) : List Op → List Published
  | [] => []
  | op :: ops => s.publishes op ++ published (s.step op) ops

/-! ## What the scheduler is for -/

/-- A pass at this time or later. -/
def Op.reaches (t : Int) : Op → Bool
  | .processDowntimes now _ => t ≤ now
  | _ => false

/-- A time, if there is one, comes in a run. -/
def comes (t : Option Int) (ops : List Op) : Bool := t.any fun t => ops.any (Op.reaches t)

/-- A downtime with this id is added, which is not refused. -/
def Op.Adds (id : UInt32) : Op → Prop
  | .addDowntime _ _ dwn => dwn.startTime < dwn.endTime ∧ dwn.internalId = id
  | _ => False

def Op.Removes (id : UInt32) : Op → Prop
  | .removeDowntime internalId => internalId = id
  | _ => False

/-- The start is published once when its time has come, then the end when its own has, with a
downtime that is otherwise the one that was added. -/
structure OnceEach (d : Downtime) (start finish : Option Int) (ops : List Op)
    (pub : List Published) : Prop where
  changes : pub.map Published.change =
    (if comes start ops then [.start] else []) ++ (if comes finish ops then [.finish] else [])
  own : ∀ p ∈ pub, p.dwn.plain = d.plain

/-- A run publishes each downtime as it should. -/
structure Faithful (ops : List Op) : Prop where
  /-- A downtime that is neither removed nor added again, from when it is added. -/
  added : ∀ pre startTime endTime d post, ops = pre ++ .addDowntime startTime endTime d :: post →
    d.startTime < d.endTime → (∀ op ∈ post, ¬ op.Adds d.internalId ∧ ¬ op.Removes d.internalId) →
      OnceEach d (if isNull d.actualStartTime then some startTime else none)
        (if isNull d.actualEndTime then some endTime else none) post
        (forId d.internalId
          (published ((pre.foldl step empty).addDowntime startTime endTime d) post))
  /-- Nothing is published for what was removed. -/
  removed : ∀ pre id post, ops = pre ++ .removeDowntime id :: post → (∀ op ∈ post, ¬ op.Adds id) →
    forId id (published ((pre.foldl step empty).removeDowntime id) post) = []
  /-- Nothing is published for what was not added. -/
  unknown : ∀ id, (∀ op ∈ ops, ¬ op.Adds id) → forId id (published empty ops) = []
  startsDesignate : ∀ e ∈ (ops.foldl step empty).starts.entries,
    (ops.foldl step empty).downtimes e.2 ≠ none
  endsDesignate : ∀ e ∈ (ops.foldl step empty).ends.entries,
    (ops.foldl step empty).downtimes e.2 ≠ none

/-- What is asked of a step: a downtime that is added is not waited for any more, and none that is
due to end is still to be started. -/
def StepOk (s : Scheduler) : Op → Prop
  | .addDowntime _ _ d => d.startTime < d.endTime →
    (∀ e ∈ s.starts.entries, e.2 ≠ d.internalId) ∧ ∀ e ∈ s.ends.entries, e.2 ≠ d.internalId
  | .removeDowntime _ => True
  | .processDowntimes now _ => ∀ e ∈ s.ends.entries, e.1 ≤ now →
    ∀ e' ∈ s.starts.entries, e'.2 = e.2 → e'.1 ≤ now

end Scheduler

end CentreonBroker.Neb
