import CentreonBroker.Multiplexing.Delivery
import CentreonBroker.Storage.Mfifo

/-!
# Streams that are closed and opened again

Two failovers, one with an sql stream and one with a storage stream, read their muxers and
push to the queue of one conflict manager. What they are told of their pushes, they tell their
muxers. An sql stream that is opened makes a new conflict manager, whatever was there before;
a storage stream that is opened starts the thread of the one that is there. The pointer to it
is the only thing that is shared, so that a stream may push to a manager it did not open.

Streams are closed for any reason and at any time. An event whose write threw was read and not
pushed. Old managers are kept here, as nothing deletes one that lost its pointer.
-/

namespace CentreonBroker.Storage.Reopening

open Multiplexing

/-- The conflict manager of the two streams: its queue, and what its life depends on. -/
structure ConflictManager (T : Type) where
  sources : Sources T 2
  /-- `_thread` runs, or is to be joined. -/
  thread : Bool
  broken : Bool
  ref_count : ℤ
  /-- Of each event that was pushed, the rank among those that its muxer got. Not in the code. -/
  ranks : Fin 2 → List ℕ

/-- The stream types are the indices of the queue. -/
def sql : Fin 2 := ⟨0, Nat.two_pos⟩

def storage : Fin 2 := ⟨1, Nat.one_lt_two⟩

structure World (F T D : Type) where
  managers : ℕ → ConflictManager T
  /-- How many managers were made. -/
  created : ℕ
  /-- `_singleton`. -/
  singleton : Option ℕ
  /-- The muxer of each failover, with the queue it stands for. -/
  session : Fin 2 → Session F T D
  /-- Whether each failover has a stream. -/
  stream : Fin 2 → Bool

/-- What the main loop of a manager does to the queue. -/
inductive Work where
  | first_events
  | process (k : ℕ)
  | clean (idx : Fin 2)

def Work.op {T : Type} : Work → Op T 2
  | first_events => .first_events
  | process k => .process k
  | clean idx => .clean idx

inductive Action (T : Type) where
  | publish (i : Fin 2) (event : Option T)
  /-- A stream is opened. A new manager is made in a memory that holds `ack` where `_ack` is. -/
  | open_stream (i : Fin 2) (ack : Fin 2 → ℤ)
  | close_stream (i : Fin 2)
  | deliver (i : Fin 2) (timed_out : Bool) (address : ℕ)
  | flush (i : Fin 2)
  | breaks (m : ℕ)
  | work (m : ℕ) (op : Work)

namespace ConflictManager

variable {T : Type}

/-- The constructor. -/
def new (ack : Fin 2 → ℤ) : ConflictManager T := ⟨Sources.start ack, false, false, 0, fun _ => []⟩

end ConflictManager

namespace World

variable {F T D : Type}

def setManager (m : ℕ) (c : ConflictManager T) (w : World F T D) : World F T D :=
  { w with managers := Function.update w.managers m c }

def setSession (i : Fin 2) (s : Session F T D) (w : World F T D) : World F T D :=
  { w with session := Function.update w.session i s }

def setStream (i : Fin 2) (opened : Bool) (w : World F T D) : World F T D :=
  { w with stream := Function.update w.stream i opened }

/-- Before any stream is opened, with what the files of the two muxers had. -/
def start (session : Fin 2 → Session F T D) : World F T D :=
  ⟨fun _ => ConflictManager.new 0, 0, none, session, fun _ => false⟩

/-- `init_sql`. -/
def init_sql (ack : Fin 2 → ℤ) (w : World F T D) : World F T D :=
  { w.setManager w.created { ConflictManager.new ack with ref_count := 1 } with
    created := w.created + 1
    singleton := some w.created }

/--
`init_storage`. It waits until there is a manager. A `std::thread` that is still to be joined
cannot be assigned to: that terminates the process.
-/
def init_storage (w : World F T D) : Option (World F T D) :=
  match w.singleton with
  | none => none
  | some m =>
    let c := w.managers m
    if c.thread then none
    else some (w.setManager m { c with thread := true, ref_count := c.ref_count + 1 })

/-- `unload`. The thread of a manager that is deleted is joined, once its queue is empty. -/
def unload (w : World F T D) : World F T D :=
  match w.singleton with
  | none => w
  | some m =>
    let c := w.managers m
    let count := c.ref_count - 1
    { w.setManager m { c with ref_count := count } with
      singleton := if count = 0 then none else some m }

/-- A failover clears its stream, which calls `unload`. -/
def close_stream (i : Fin 2) (w : World F T D) : World F T D := (w.setStream i false).unload

variable [QueueFile F T D] (max : ℕ) (accepts : Fin 2 → T → Bool)

/-- What a muxer is called with. -/
def call (i : Fin 2) (op : Multiplexing.Op T) (w : World F T D) : World F T D :=
  w.setSession i ((w.session i).step max (accepts i) op)

/-- A failover opens its endpoint, and starts again from what is not acknowledged. -/
def open_stream (i : Fin 2) (ack : Fin 2 → ℤ) (w : World F T D) : Option (World F T D) :=
  if w.stream i then none
  else
    (if i = sql then some (w.init_sql ack) else w.init_storage).map fun w =>
      (w.setStream i true).call max accepts i .nackEvents

/-- An event of the muxer is written to the stream, and what this returns is acknowledged. -/
def deliver (i : Fin 2) (timed_out : Bool) (address : ℕ) (w : World F T D) : Option (World F T D) :=
  if w.stream i then
    let rank := (w.session i).queue.cursor
    let event := (read timed_out (w.session i).muxer).1.1
    let w := w.call max accepts i (.read timed_out)
    match event, w.singleton with
    | none, _ => some w
    | some _, none => none
    | some e, some m =>
      let c := w.managers m
      -- `send_event` throws, and the failover clears its stream
      if c.broken then some (w.close_stream i)
      else
        (c.sources.step (.push i e address)).map fun sources =>
          (w.setManager m { c with
            sources := sources
            ranks := Function.update c.ranks i (c.ranks i ++ [rank]) }).call max accepts i
              (.ackEvents (c.sources.fifo.ack i))
  else none

/-- `flush`, and what it returns is acknowledged. -/
def flush (i : Fin 2) (w : World F T D) : Option (World F T D) :=
  if w.stream i then
    match w.singleton with
    | none => none
    | some m =>
      let c := w.managers m
      if c.broken then some (w.close_stream i)
      else
        some ((w.setManager m { c with sources := c.sources.get_acks i }).call max accepts i
          (.ackEvents (c.sources.fifo.ack i)))
  else none

/-- The thread of a manager does one step. -/
def work (m : ℕ) (op : Work) (w : World F T D) : Option (World F T D) :=
  let c := w.managers m
  if c.thread then (c.sources.step op.op).map fun sources => w.setManager m { c with sources := sources }
  else none

/-- A step, if there is one. -/
def step (w : World F T D) : Action T → Option (World F T D)
  | .publish i event => some (w.call max accepts i (.publish event))
  | .open_stream i ack => w.open_stream max accepts i ack
  | .close_stream i => if w.stream i then some (w.close_stream i) else none
  | .deliver i timed_out address => w.deliver max accepts i timed_out address
  | .flush i => w.flush max accepts i
  | .breaks m => some (w.setManager m { w.managers m with broken := true })
  | .work m op => w.work m op

/-- Steps in any order. -/
def run : List (Action T) → World F T D → Option (World F T D)
  | [], w => some w
  | a :: as, w => (w.step max accepts a).bind (run as)

end World

end CentreonBroker.Storage.Reopening
