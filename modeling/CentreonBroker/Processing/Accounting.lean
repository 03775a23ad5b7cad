import CentreonBroker.Bam.MonitoringStream
import CentreonBroker.Bam.ReportingCount
import CentreonBroker.Graphite.Stream
import CentreonBroker.Influxdb.Stream

/-!
# The accounts of the output streams

What a failover is owed by the streams that it writes to: each event is acknowledged or pending,
and an acknowledged event has its data sent or committed. The BAM reporting stream counts the
events that it writes to itself with those of the failover, and no BAM stream learns that the server
did not commit.
-/

namespace CentreonBroker.Processing

open Bam (MonitoringStream ReportingStream BaEvent TimeperiodMap Period Tables)
open Sink (Books Call)
open Time (Timeperiod)

/-- The books of the four streams are settled after each call, where the server does what the BAM
streams ask it for, and the reporting stream writes nothing to itself. -/
theorem accounts_settled {C M S E A P E' : Type} (lines : Influxdb.Stream.Lines C M S E)
    (queries : Graphite.Stream.Queries C M S E) (update : MonitoringStream.Update A P E')
    (offset : ℤ) (duration_intersect : Timeperiod → ℤ → ℤ → ℕ) :
    (∀ queries_per_transaction cache answers calls s b,
      (Influxdb.Stream.sink lines).run calls
        (.new queries_per_transaction cache answers) Books.new = some (s, b) →
      (Influxdb.Stream.sink lines).Settled s b) ∧
    (∀ queries_per_transaction cache auth_query writes calls s b,
      (Graphite.Stream.sink queries).run calls
        (.new queries_per_transaction cache auth_query writes) Books.new = some (s, b) →
      (Graphite.Stream.sink queries).Settled s b) ∧
    (∀ applier ba_mapping replies calls s b,
      (∀ r ∈ replies, Mysql.Reply.Good r) →
      (MonitoringStream.sink update).run calls
        (.new applier ba_mapping replies) Books.new = some (s, b) →
      (MonitoringStream.sink update).Settled s b) ∧
    (∀ tables timeperiods replies calls s b,
      (∀ r ∈ replies, Mysql.Reply.Good r) →
      (ReportingStream.sink offset duration_intersect).Always
        (ReportingStream.WritesNothing offset duration_intersect) calls
        (.connected (.new tables replies) timeperiods) →
      (ReportingStream.sink offset duration_intersect).run calls
        (.connected (.new tables replies) timeperiods) Books.new = some (s, b) →
      (ReportingStream.sink offset duration_intersect).Settled s b) := by
  refine ⟨?_, ?_, ?_, ?_⟩
  · intro queries_per_transaction cache answers calls s b hrun
    exact Influxdb.Stream.law.settled trivial rfl rfl
      (Sink.always_of_forall _ (fun _ _ => trivial) calls _) hrun
  · intro queries_per_transaction cache auth_query writes calls s b hrun
    have hcounted := Graphite.Stream.counted_new queries_per_transaction cache auth_query writes
    refine Graphite.Stream.law.settled hcounted rfl ?_
      (Sink.always_of_forall _ (fun _ _ => trivial) calls _) hrun
    exact hcounted.lines rfl
  · intro applier ba_mapping replies calls s b hgood hrun
    exact MonitoringStream.law.settled (Mysql.Session.sound_new () hgood) rfl rfl
      (Sink.always_of_forall _ (fun _ _ => trivial) calls _) hrun
  · intro tables timeperiods replies calls s b hgood hnothing hrun
    exact ReportingStream.law.settled ⟨rfl, Mysql.Session.sound_new tables hgood⟩ rfl rfl
      hnothing hrun

/-- Lines of one character, and no cache. -/
def plainLines : Influxdb.Stream.Lines Unit ℕ ℕ ℕ := ⟨fun _ _ => (), fun _ _ => ['m'], fun _ _ => ['s']⟩

def plainQueries : Graphite.Stream.Queries Unit ℕ ℕ ℕ :=
  ⟨fun _ _ => (), fun _ _ => ['m'], fun _ _ => []⟩

/-- The whole of every day. -/
def always : Timeperiod := ⟨fun _ => [⟨0, 86400⟩]⟩

/-- The duration in the first ranges that are met. -/
def durationOf (tp : Timeperiod) (start_time end_time : ℤ) : ℕ :=
  (tp.duration_intersect 0 8 start_time end_time).getD 0

/-- BA 1 is reported on the whole of every day. -/
def reported : TimeperiodMap :=
  ⟨fun id => if id = 1 then some ⟨1, [], always, [], []⟩ else none, [⟨1, 1, true⟩]⟩

/-- An event of BA 1. -/
def eventUntil (end_time : ℤ) : Bam.Event := .ba_event ⟨1, 0, end_time, false, 100, 2⟩

/-- The books of a monitoring stream that leaves the statuses of services alone. -/
def noBooks : MonitoringStream.Update Unit ℕ ℕ := fun _ _ => ((), [])

/-- A status of BA 1. -/
def statusOfOne : Bam.MonitoringEvent ℕ := .ba_status ⟨1, false, 100, 0, 0, 50, 2, false⟩

/-- A status is committed, and so is an event that is not ended and has no duration, behind a
statement that had to wait for a lock. -/
theorem accounts_settled_open :
    (∃ s b, (MonitoringStream.sink noBooks).run [.write (0, some statusOfOne), .flush]
        (.new () (fun _ => ([], [])) [.ok]) Books.new = some (s, b) ∧ b.returned = 1 ∧
      (MonitoringStream.sink noBooks).Settled s b) ∧
    ∃ s b, (ReportingStream.sink 0 durationOf).run [.write (some (eventUntil 0)), .flush]
        (.connected (.new Tables.new [⟨.committed, true, false⟩]) reported) Books.new =
          some (s, b) ∧ b.returned = 1 ∧
      (ReportingStream.sink 0 durationOf).Settled s b :=
  ⟨⟨_, _, rfl, rfl, (accounts_settled plainLines plainQueries noBooks 0 durationOf).2.2.1
      () (fun _ => ([], [])) [.ok] [.write (0, some statusOfOne), .flush] _ _ (by decide) rfl⟩,
    ⟨_, _, rfl, rfl, (accounts_settled plainLines plainQueries noBooks 0 durationOf).2.2.2
      Tables.new reported [⟨.committed, true, false⟩] [.write (some (eventUntil 0)), .flush] _ _
      (by decide) ⟨rfl, fun _ _ => ⟨trivial, fun _ _ => trivial⟩⟩ rfl⟩⟩

/-- The end of an event is acknowledged twice: as itself, and as the duration event that the
stream writes to itself. A status is acknowledged where the server is gone at the commit. -/
theorem not_settled :
    (¬ ∀ tables timeperiods replies calls s b,
      (ReportingStream.sink 0 durationOf).run calls
        (.connected (.new tables replies) timeperiods) Books.new = some (s, b) →
      (ReportingStream.sink 0 durationOf).Settled s b) ∧
    ¬ ∀ ba_mapping replies calls s b,
      (MonitoringStream.sink noBooks).run calls (.new () ba_mapping replies) Books.new =
        some (s, b) →
      (MonitoringStream.sink noBooks).Settled s b := by
  constructor
  · intro h
    have hsettled := h Tables.new reported [] [.write (some (eventUntil 200)), .flush] _ _ rfl
    exact absurd hsettled.returned_le (by decide)
  · intro h
    have hsettled := h (fun _ => ([], [])) [.ok, ⟨.rolledBack, false, true⟩]
      [.write (0, some statusOfOne), .flush] _ _ rfl
    cases List.prefix_nil.mp hsettled.covered

end CentreonBroker.Processing
