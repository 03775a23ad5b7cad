import Mathlib.Data.List.Basic
import Mathlib.Data.Int.Order.Basic
import Mathlib.Tactic.Cases

/-!
# The output of a TCP connection

`write` pushes a vector to a queue and starts a `writing` task if none is at work. The task
swaps the queue with its own, and the vectors of that queue are sent one after the other, each
by the handler of the one before. The caller and the tasks run in different threads: each
critical section and each access to an atomic is a step, and the steps come in any order.

The socket has no error, so that the checks of `_current_error` find nothing.
-/

namespace CentreonBroker.Tcp

/-- Where the caller is. -/
inductive Caller (V : Type) where
  | idle
  /-- In `write`: the vector is to be pushed. -/
  | push (v : V)
  /-- `_writing` is to be read. -/
  | test
  /-- `_writing` is to be set. -/
  | set
  /-- The task is to be posted. -/
  | post
  /-- `_acks` is to be read. -/
  | load
  /-- `_acks -= retval`. -/
  | sub (retval : ℤ)
  /-- In `flush`: `_acks` is to be read. -/
  | flushLoad
  /-- `_acks` is to be read again. -/
  | flushTest (retval : ℤ)
  | flushSub (retval : ℤ)
  /-- `_write_queue_has_events` is to be read. -/
  | flushEvents (retval : ℤ)
  | flushWriting (retval : ℤ)
  | flushSet (retval : ℤ)
  | flushPost (retval : ℤ)

/-- Where a `writing` task or a `handle_write` handler is. -/
inductive Task where
  /-- `writing`: `_write_queue_has_events` is to be read. -/
  | start
  /-- The queues are to be swapped. -/
  | swap
  /-- `_write_queue_has_events` is to be read again. -/
  | test
  /-- There is nothing to send: `_writing` is to be reset. -/
  | reset
  /-- `async_write` is to be called. -/
  | send
  /-- `handle_write`: `++_acks`. -/
  | ack
  /-- The vector that was sent is to be removed. -/
  | pop
  /-- `_write_queue_has_events` is to be read. -/
  | again
  /-- `async_write` is to be called for the next vector. -/
  | next
  deriving DecidableEq, Repr

structure Connection (V : Type) where
  exposed_write_queue : List V
  write_queue : List V
  write_queue_has_events : Bool
  writing : Bool
  acks : ℤ
  caller : Caller V
  /-- The tasks and the handlers that were posted and are not done. -/
  tasks : List Task
  /-- The calls to `async_write` that are not completed. -/
  sending : List V
  /-- All that was pushed by `write`. -/
  written : List V
  /-- All that was handed to `async_write`. -/
  handed : List V
  completed : ℤ
  /-- The sum of what `write` and `flush` returned. -/
  returned : ℤ

inductive Act (V : Type) where
  | write (v : V)
  | flush
  /-- The caller goes on. -/
  | caller
  /-- One of the tasks goes on. -/
  | task (k : ℕ)
  /-- One of the calls to `async_write` is completed: its handler is posted. -/
  | complete (k : ℕ)

namespace Connection

variable {V : Type}

def new : Connection V := ⟨[], [], false, false, 0, .idle, [], [], [], [], 0, 0⟩

/-- The end of a call. -/
def ret (retval : ℤ) (c : Connection V) : Connection V :=
  { c with caller := .idle, returned := c.returned + retval }

/-- A step of `write` or of `flush`. -/
def callerStep (c : Connection V) : Option (Connection V) :=
  match c.caller with
  | .idle => none
  | .push v => some { c with
      exposed_write_queue := c.exposed_write_queue ++ [v]
      written := c.written ++ [v]
      caller := .test }
  | .test => some { c with caller := if c.writing then .load else .set }
  | .set => some { c with writing := true, caller := .post }
  | .post => some { c with tasks := c.tasks ++ [.start], caller := .load }
  | .load => some { c with caller := .sub c.acks }
  | .sub retval => some (ret retval { c with acks := c.acks - retval })
  | .flushLoad => some { c with caller := .flushTest c.acks }
  | .flushTest retval =>
    some { c with caller := if c.acks ≠ 0 then .flushSub retval else .flushEvents retval }
  | .flushSub retval => some (ret retval { c with acks := c.acks - retval })
  | .flushEvents retval =>
    some (if c.write_queue_has_events then { c with caller := .flushWriting retval }
      else c.ret retval)
  | .flushWriting retval =>
    some (if c.writing then c.ret retval else { c with caller := .flushSet retval })
  | .flushSet retval => some { c with writing := true, caller := .flushPost retval }
  | .flushPost retval => some (ret retval { c with tasks := c.tasks ++ [.start] })

/-- `asio::async_write` of the front of the queue, which ends the task. -/
def asyncWrite (k : ℕ) (c : Connection V) : Option (Connection V) :=
  match c.write_queue with
  | [] => none
  | v :: _ => some { c with
      tasks := c.tasks.eraseIdx k, sending := c.sending ++ [v], handed := c.handed ++ [v] }

/-- A step of `writing` or of `handle_write`. -/
def taskStep (k : ℕ) (t : Task) (c : Connection V) : Option (Connection V) :=
  match t with
  | .start =>
    some { c with tasks := c.tasks.set k (if c.write_queue_has_events then .test else .swap) }
  | .swap => some { c with
      exposed_write_queue := c.write_queue
      write_queue := c.exposed_write_queue
      write_queue_has_events := !c.exposed_write_queue.isEmpty
      tasks := c.tasks.set k .test }
  | .test =>
    some { c with tasks := c.tasks.set k (if c.write_queue_has_events then .send else .reset) }
  | .reset => some { c with writing := false, tasks := c.tasks.eraseIdx k }
  | .send => c.asyncWrite k
  | .ack => some { c with acks := c.acks + 1, tasks := c.tasks.set k .pop }
  | .pop =>
    match c.write_queue with
    | [] => none
    | _ :: queue => some { c with
        write_queue := queue
        write_queue_has_events := !queue.isEmpty
        tasks := c.tasks.set k .again }
  | .again =>
    some { c with tasks := c.tasks.set k (if c.write_queue_has_events then .next else .start) }
  | .next => c.asyncWrite k

/-- A step, if there is one. -/
def step (c : Connection V) : Act V → Option (Connection V)
  | .write v => match c.caller with
    | .idle => some { c with caller := .push v }
    | _ => none
  | .flush => match c.caller with
    | .idle => some { c with caller := .flushLoad }
    | _ => none
  | .caller => c.callerStep
  | .task k => c.tasks[k]?.bind fun t => c.taskStep k t
  | .complete k => c.sending[k]?.map fun _ => { c with
      sending := c.sending.eraseIdx k
      tasks := c.tasks ++ [.ack]
      completed := c.completed + 1 }

/-- Steps in any order. -/
def run : List (Act V) → Connection V → Option (Connection V)
  | [], c => some c
  | a :: acts, c => (c.step a).bind (run acts)

/-! ## What is expected -/

/-- What is expected of the output, in every state. -/
structure Sound (c : Connection V) : Prop where
  /-- What was handed to `async_write` is what was written, once each and in order. -/
  order : c.handed <+: c.written
  /-- There is something to send when a task calls `async_write`, or removes what was sent. -/
  front : ∀ t ∈ c.tasks, t = .send ∨ t = .next ∨ t = .pop → c.write_queue ≠ []
  single : c.sending.length ≤ 1
  acks : c.returned ≤ c.completed
  /-- No acknowledgement is lost: each is returned, in `_acks`, or about to be added to it. -/
  kept : c.returned + c.acks + c.tasks.count .ack = c.completed
  /-- Nothing is left unsent when nobody is at work. -/
  awake : c.caller = .idle → c.tasks = [] → c.sending = [] → c.handed = c.written

end Connection

end CentreonBroker.Tcp
