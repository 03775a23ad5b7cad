import Mathlib.Init

/-!
# Downtimes

`neb::downtime`. A time that is not known is −1 or 0.
-/

namespace CentreonBroker.Neb

/-- `timestamp::is_null`. -/
def isNull (t : Int) : Bool := t = -1 || t = 0

/-- `node_id`. -/
structure NodeId where
  hostId : Nat
  serviceId : Nat
  deriving DecidableEq, Repr

/-- `neb::downtime`. -/
structure Downtime where
  actualEndTime : Int := -1
  actualStartTime : Int := -1
  author : String := ""
  comment : String := ""
  deletionTime : Int := -1
  downtimeType : Int := 0
  duration : Int := -1
  endTime : Int := -1
  entryTime : Int := -1
  fixed : Bool := true
  hostId : Nat := 0
  internalId : UInt32 := 0
  pollerId : Nat := 0
  serviceId : Nat := 0
  startTime : Int := -1
  triggeredBy : Nat := 0
  wasCancelled : Bool := false
  wasStarted : Bool := false
  isRecurring : Bool := false
  recurringTimeperiod : String := ""
  comeFrom : Int := 0

namespace Downtime

/-- The default constructor. -/
def blank : Downtime := {}

/-- The node that a downtime is for. -/
def node (d : Downtime) : NodeId := ⟨d.hostId, d.serviceId⟩

end Downtime

end CentreonBroker.Neb
