import CentreonBroker.Lib.AckQueue

/-!
# The event queue of a subscriber

A muxer keeps in `_events` the events its endpoint has not acknowledged, with
`_pos` on the first that was not read. Past `event_queue_max_size` events what is
published goes to a file instead, and comes back to memory as acknowledgements
make room.

The file is a `persistent_file`. All a muxer does with one is to open it, to
write to it, to read from it until the shutdown and to close it: `QueueFile` is
these four, over what an open file is (`F`) and what it leaves on the disk (`D`).
-/

namespace CentreonBroker.Multiplexing

/-- A `persistent_file`, as a muxer uses it. -/
class QueueFile (F : Type) (α D : outParam Type) where
  /-- `persistent_file(path)`, on what the disk has under this path. -/
  openFile : D → F
  /-- `write`. -/
  write : F → α → F
  /-- `read`: an event, or the shutdown, and then what the disk has once the file is closed. -/
  read : F → Except D (α × F)
  /-- The destructor. -/
  close : F → D
  /-- What a read brings closer to its end. -/
  left : F → Nat
  read_lt : ∀ {f a f'}, read f = .ok (a, f') → left f' < left f

/-- `_file`, and what the disk has under its path while it is null. -/
inductive Queue (F D : Type) where
  | closed (d : D)
  | opened (f : F)

/-- The members of `muxer` that hold its events. -/
structure Muxer (F α D : Type) where
  events : List α
  events_size : Nat
  /-- The index of the element `_pos` is on, the length of the list for `end()`. -/
  pos : Nat
  file : Queue F D

section Operations

variable {F α D : Type} [QueueFile F α D]

/-- `_get_event_from_file`, on `_file`: no event when it is null. -/
def getEventFromFile : Queue F D → Option α × Queue F D
  | .closed d => (none, .closed d)
  | .opened f =>
    match QueueFile.read f with
    | .ok (e, f') => (some e, .opened f')
    | .error d => (none, .closed d)

/-- What the file has left to give. -/
def Queue.left : Queue F D → Nat
  | .closed _ => 0
  | .opened f => QueueFile.left f

theorem getEventFromFile_lt {q q' : Queue F D} {e : α} (h : getEventFromFile q = (some e, q')) :
    q'.left < q.left := by
  cases q with
  | closed d => cases h
  | opened f =>
    unfold getEventFromFile at h
    dsimp only at h
    split at h
    · rename_i hr; cases h; exact QueueFile.read_lt hr
    · cases h

/-- `_push_to_queue`. An iterator at `end()` is moved to the new element. -/
def pushToQueue (m : Muxer F α D) (event : α) : Muxer F α D :=
  let pos_has_no_more_to_read := m.pos = m.events.length
  { m with
    events := m.events ++ [event]
    events_size := m.events_size + 1
    pos := if pos_has_no_more_to_read then (m.events ++ [event]).length - 1 else m.pos }

/-- `_file`, opened if it is null. -/
def Queue.toWrite : Queue F D → F
  | .closed d => QueueFile.openFile d
  | .opened f => f

/-- `publish`. `accepts` is the write filter, on the type of the event. -/
def publish (max : Nat) (accepts : α → Bool) (m : Muxer F α D) : Option α → Muxer F α D
  | none => m
  | some event =>
    if accepts event then
      if max ≤ m.events_size then
        { m with file := .opened (QueueFile.write m.file.toWrite event) }
      else pushToQueue m event
    else m

/--
`read`. A call that waited comes here when it has the lock again; `timed_out`
tells whether its wait ended on the deadline.
-/
def read (timed_out : Bool) (m : Muxer F α D) : (Option α × Bool) × Muxer F α D :=
  match m.events[m.pos]? with
  | some event => ((some event, true), { m with pos := m.pos + 1 })
  | none => ((none, !timed_out), m)

/-- The loop of `ack_events` that removes events, for the `count` that are left to remove. -/
def removeEvents : Nat → Muxer F α D → Muxer F α D
  | 0, m => m
  | count + 1, m =>
    if m.events.isEmpty then m
    -- `_events.begin() == _pos`: more acknowledged than read
    else if m.pos = 0 then m
    else
      removeEvents count
        { m with events := m.events.tail, events_size := m.events_size - 1, pos := m.pos - 1 }

/-- The loop of `ack_events` that fills memory from the file. -/
def fillMemory (max : Nat) (m : Muxer F α D) : Muxer F α D :=
  if m.events_size < max then
    match getEventFromFile m.file with
    | (none, file) => { m with file := file }
    | (some e, file) => fillMemory max (pushToQueue { m with file := file } e)
  else m
termination_by max - m.events_size
decreasing_by
  show max - (m.events_size + 1) < max - m.events_size
  omega

/-- `ack_events`. -/
def ackEvents (max : Nat) (m : Muxer F α D) (count : Int) : Muxer F α D :=
  if count = 0 then m else fillMemory max (removeEvents count.toNat m)

/-- `nack_events`. -/
def nackEvents (m : Muxer F α D) : Muxer F α D := { m with pos := 0 }

/-! ## Starting and stopping -/

/-- The loop that reads the memory file back until its shutdown, then closes it. -/
def readBack (f : F) : List α × D :=
  match _h : QueueFile.read f with
  | .ok (e, f') =>
    let (events, d) := readBack f'
    (e :: events, d)
  | .error d => ([], d)
termination_by QueueFile.left f
decreasing_by exact QueueFile.read_lt _h

/-- The loop that reads the queue file back: at least once, then while there is room. -/
def loadQueue (max : Nat) (m : Muxer F α D) : Muxer F α D :=
  match _h : getEventFromFile m.file with
  | (none, file) => { m with file := file }
  | (some e, file) =>
    let m' := { m with events := m.events ++ [e], events_size := m.events_size + 1, file := file }
    if m'.events_size < max then loadQueue max m' else m'
termination_by m.file.left
decreasing_by exact getEventFromFile_lt _h

/--
The constructor, on what the disk has of the memory file and of the queue file,
with what it leaves of the memory file.
-/
def new (max : Nat) (persistent : Bool) (memory queue : D) : Muxer F α D × D :=
  let (head, memory) :=
    if persistent then readBack (QueueFile.openFile memory : F) else ([], memory)
  let m := loadQueue max
    { events := head, events_size := head.length, pos := 0,
      file := .opened (QueueFile.openFile queue : F) }
  ({ m with pos := 0 }, memory)

/-- `_file.reset()`. -/
def Queue.close : Queue F D → D
  | .closed d => d
  | .opened f => QueueFile.close f

/-- `_clean`: what the disk has of the memory file and of the queue file once it is over. -/
def clean (persistent : Bool) (m : Muxer F α D) (memory : D) : D × D :=
  let queue := m.file.close
  if persistent ∧ ¬ m.events.isEmpty then
    (QueueFile.close (m.events.foldl QueueFile.write (QueueFile.openFile memory : F)), queue)
  else (memory, queue)

end Operations

end CentreonBroker.Multiplexing
