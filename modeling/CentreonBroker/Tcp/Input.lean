import Mathlib.Data.List.Basic
import Mathlib.Data.List.Flatten
import Mathlib.Data.Int.Order.Basic
import Mathlib.Tactic.Cases

/-!
# The input of a TCP connection

The handlers of `async_read_some` push what is received to a queue. `read` has a queue of its own,
which it swaps with the other one when it is empty, and waits when both are. The handlers and the
caller run in different threads: each critical section is a step, and the steps come in any order.

There was no error in writing, so that `read` does not find one.
-/

namespace CentreonBroker.Tcp.Input

variable {α : Type}

/-- Where the caller is, which is in `read` at most once at a time. -/
inductive Reader where
  | idle
  /-- `_socket.is_open()` is to be read. -/
  | test (timeout_time : ℤ)
  /-- The socket is closed: the queues are to be swapped. -/
  | last
  /-- The front of the queue is to be taken, if there is one. -/
  | takeLast
  /-- The socket is open: the queues are to be swapped. -/
  | look (timeout_time : ℤ)
  /-- It waits for the other queue. -/
  | wait (timeout_time : ℤ)
  /-- The front of the queue is to be taken. -/
  | take
  deriving DecidableEq, Repr

/-- How a call of `read` ended. -/
inductive Result (α : Type) where
  /-- The vector that was returned, and what `timeout` was set to. -/
  | data (v : List α) (timeout : Bool)
  /-- The exception for a closing socket, and what had been received and not returned then. -/
  | closing (missing : List α)

def Result.bytes : Result α → List α
  | data v _ => v
  | closing _ => []

structure Connection (α : Type) where
  read_queue : List (List α)
  exposed_read_queue : List (List α)
  closing : Bool
  is_open : Bool
  reader : Reader
  /-- The handlers that had an error, and are to set `_closing`. -/
  failing : ℕ
  /-- The front of an empty queue was taken. -/
  fault : Bool
  /-- The blocks that the handlers got. -/
  received : List (List α)
  results : List (Result α)

namespace Connection

def new : Connection α := ⟨[], [], false, true, .idle, 0, false, [], []⟩

/-- What `read` returned. -/
def returned (c : Connection α) : List α := c.results.flatMap Result.bytes

/-- What was received and is not returned. -/
def missing (c : Connection α) : List α := c.received.flatten.drop c.returned.length

/-- `handle_read`, up to the check of the error. -/
def handle_read (block : List α) (error : Bool) (c : Connection α) : Connection α :=
  { c with
    read_queue := if block.length > 0 then c.read_queue ++ [block] else c.read_queue
    failing := if error then c.failing + 1 else c.failing
    received := c.received ++ [block] }

/-- `_closing` is set. -/
def fail (c : Connection α) : Connection α :=
  if c.failing = 0 then c else { c with closing := true, failing := c.failing - 1 }

def swap (c : Connection α) : Connection α :=
  { c with exposed_read_queue := c.read_queue, read_queue := c.exposed_read_queue }

/-- The end of `read`. -/
def finish (r : Result α) (c : Connection α) : Connection α :=
  { c with reader := .idle, results := c.results ++ [r] }

/-- `_exposed_read_queue.front()` and `pop()`, and the end of `read`. -/
def pop (b : List α) (rest : List (List α)) (c : Connection α) : Connection α :=
  { c with exposed_read_queue := rest }.finish (.data b b.isEmpty)

/-- The predicate of the wait is true. -/
def awake (c : Connection α) : Bool := !c.read_queue.isEmpty || c.closing

/-- What follows the wait. -/
def wake (c : Connection α) : Connection α :=
  if c.read_queue.isEmpty then c.finish (.closing c.missing) else { c.swap with reader := .take }

/-- The caller goes on. -/
def go (c : Connection α) : Connection α :=
  match c.reader with
  | .idle => c
  | .test timeout_time =>
    { c with reader := if c.is_open then .look timeout_time else .last }
  | .last =>
    { (if c.exposed_read_queue.isEmpty then c.swap else c) with reader := .takeLast }
  | .takeLast =>
    match c.exposed_read_queue with
    | [] => c.finish (.data [] true)
    | b :: rest => c.pop b rest
  | .look timeout_time =>
    if c.exposed_read_queue.isEmpty then
      let c := c.swap
      { c with reader := if c.exposed_read_queue.isEmpty then .wait timeout_time else .take }
    else { c with reader := .take }
  | .wait _ => if c.awake then c.wake else c
  | .take =>
    match c.exposed_read_queue with
    | [] => { c with fault := true }
    | b :: rest => c.pop b rest

/-- The time of a wait is over. There is none for a wait without a limit. -/
def expire (c : Connection α) : Connection α :=
  match c.reader with
  | .wait timeout_time =>
    if timeout_time = -1 then c
    else if c.awake then c.wake
    else c.finish (.data [] true)
  | _ => c

end Connection

inductive Act (α : Type) where
  | handle_read (block : List α) (error : Bool)
  | fail
  /-- `close`, from any thread. -/
  | close
  | read (timeout_time : ℤ)
  | go
  | expire

def step (c : Connection α) : Act α → Connection α
  | .handle_read block error => c.handle_read block error
  | .fail => c.fail
  | .close => { c with is_open := false }
  | .read timeout_time => if c.reader = .idle then { c with reader := .test timeout_time } else c
  | .go => c.go
  | .expire => c.expire

/-! ## What is asked -/

/-- The flag of a timeout says that nothing was returned, and the socket was given up only when
nothing was missing. -/
def Result.Right : Result α → Prop
  | data v timeout => timeout = true ↔ v = []
  | closing missing => missing = []

structure Good (c : Connection α) : Prop where
  order : c.returned <+: c.received.flatten
  front : c.fault = false
  results : ∀ r ∈ c.results, r.Right

/-! ## What every step keeps -/

/-- What the caller knows of its queue. -/
def Reader.Knows (queue : List (List α)) : Reader → Prop
  | .wait _ => queue = []
  | .take => queue ≠ []
  | _ => True

structure Inv (c : Connection α) : Prop where
  flow : c.returned ++ (c.exposed_read_queue.flatten ++ c.read_queue.flatten) =
    c.received.flatten
  /-- No block is empty. -/
  exposed : ∀ b ∈ c.exposed_read_queue, b ≠ []
  queue : ∀ b ∈ c.read_queue, b ≠ []
  knows : c.reader.Knows c.exposed_read_queue
  front : c.fault = false
  results : ∀ r ∈ c.results, r.Right

theorem Inv.good {c : Connection α} (h : Inv c) : Good c :=
  ⟨⟨_, h.flow⟩, h.front, h.results⟩

theorem inv_new : Inv (Connection.new : Connection α) :=
  ⟨rfl, nofun, nofun, trivial, rfl, nofun⟩

namespace Inv

variable {c : Connection α}

/-- The caller goes on. -/
theorem move (h : Inv c) {reader : Reader} (hknows : reader.Knows c.exposed_read_queue) :
    Inv { c with reader := reader } :=
  ⟨h.flow, h.exposed, h.queue, hknows, h.front, h.results⟩

/-- The queues are swapped, while the caller's is empty. -/
theorem swap (h : Inv c) (hempty : c.exposed_read_queue = []) {reader : Reader}
    (hknows : reader.Knows c.read_queue) : Inv { c.swap with reader := reader } := by
  refine ⟨?_, h.queue, h.exposed, hknows, h.front, h.results⟩
  show c.returned ++ (c.read_queue.flatten ++ c.exposed_read_queue.flatten) = c.received.flatten
  rw [← h.flow, hempty, List.flatten_nil, List.append_nil, List.nil_append]

/-- The call ends without data. -/
theorem finish (h : Inv c) {r : Result α} (hbytes : r.bytes = []) (hr : r.Right) :
    Inv (c.finish r) := by
  refine ⟨?_, h.exposed, h.queue, trivial, h.front, ?_⟩
  · have hreturned : (c.finish r).returned = c.returned := by
      show (c.results ++ [r]).flatMap Result.bytes = _
      rw [List.flatMap_append, List.flatMap_singleton, hbytes, List.append_nil]
      rfl
    rw [hreturned]
    exact h.flow
  · intro r' hr'
    rcases List.mem_append.mp hr' with hold | hnew
    · exact h.results r' hold
    · rw [List.mem_singleton.mp hnew]
      exact hr

/-- The call ends with the front of the queue. -/
theorem pop (h : Inv c) {b : List α} {rest : List (List α)}
    (hqueue : c.exposed_read_queue = b :: rest) : Inv (c.pop b rest) := by
  have hb : b ≠ [] := h.exposed b (by rw [hqueue]; exact List.mem_cons_self)
  refine ⟨?_, ?_, h.queue, trivial, h.front, ?_⟩
  · have hreturned : (c.pop b rest).returned = c.returned ++ b := by
      show (c.results ++ [Result.data b b.isEmpty]).flatMap Result.bytes = _
      rw [List.flatMap_append, List.flatMap_singleton]
      rfl
    rw [hreturned]
    show c.returned ++ b ++ (rest.flatten ++ c.read_queue.flatten) = c.received.flatten
    rw [← h.flow, hqueue, List.flatten_cons]
    simp only [List.append_assoc]
  · intro b' hb'
    exact h.exposed b' (by rw [hqueue]; exact List.mem_cons_of_mem b hb')
  · intro r hr
    rcases List.mem_append.mp hr with hold | hnew
    · exact h.results r hold
    · rw [List.mem_singleton.mp hnew]
      exact List.isEmpty_iff

/-- Nothing is missing when both queues are empty. -/
theorem missing_eq_nil (h : Inv c) (hexposed : c.exposed_read_queue = [])
    (hqueue : c.read_queue = []) : c.missing = [] := by
  have hflow := h.flow
  rw [hexposed, hqueue, List.flatten_nil, List.append_nil, List.append_nil] at hflow
  rw [Connection.missing, ← hflow, List.drop_length]

theorem wake (h : Inv c) (hexposed : c.exposed_read_queue = []) : Inv c.wake := by
  rw [Connection.wake]
  split
  · rename_i hqueue
    exact h.finish rfl (h.missing_eq_nil hexposed (List.isEmpty_iff.mp hqueue))
  · rename_i hqueue
    exact h.swap hexposed fun hempty => hqueue (List.isEmpty_iff.mpr hempty)

theorem handle_read (h : Inv c) (block : List α) (error : Bool) :
    Inv (c.handle_read block error) := by
  refine ⟨?_, h.exposed, ?_, h.knows, h.front, h.results⟩
  · show c.returned ++ (c.exposed_read_queue.flatten ++
      (if block.length > 0 then c.read_queue ++ [block] else c.read_queue).flatten) =
        (c.received ++ [block]).flatten
    rw [List.flatten_concat, ← h.flow]
    split
    · rw [List.flatten_concat]
      simp only [List.append_assoc]
    · rename_i hlength
      have hblock : block = [] := List.eq_nil_of_length_eq_zero (by omega)
      rw [hblock, List.append_nil]
  · intro b hb
    have hcases : b ∈ c.read_queue ∨ b = block ∧ 0 < block.length := by
      change b ∈ (if block.length > 0 then c.read_queue ++ [block] else c.read_queue) at hb
      split at hb
      · rename_i hlength
        rcases List.mem_append.mp hb with hold | hnew
        · exact .inl hold
        · exact .inr ⟨List.mem_singleton.mp hnew, hlength⟩
      · exact .inl hb
    rcases hcases with hold | ⟨rfl, hlength⟩
    · exact h.queue b hold
    · exact List.ne_nil_of_length_pos hlength

theorem go (h : Inv c) : Inv c.go := by
  have hknows := h.knows
  rw [Connection.go]
  split
  · exact h
  · refine h.move ?_
    split <;> trivial
  · split
    · rename_i hempty
      exact h.swap (List.isEmpty_iff.mp hempty) trivial
    · exact h.move trivial
  · split
    · exact h.finish rfl (iff_of_true rfl rfl)
    · rename_i hqueue
      exact h.pop hqueue
  · split
    · rename_i hempty
      refine h.swap (List.isEmpty_iff.mp hempty) ?_
      split
      · rename_i hqueue
        exact List.isEmpty_iff.mp hqueue
      · rename_i hqueue
        exact fun hnil => hqueue (List.isEmpty_iff.mpr hnil)
    · rename_i hempty
      exact h.move fun hnil => hempty (List.isEmpty_iff.mpr hnil)
  · rename_i hreader
    rw [hreader] at hknows
    split
    · exact h.wake hknows
    · exact h
  · rename_i hreader
    rw [hreader] at hknows
    split
    · rename_i hempty
      exact absurd hempty hknows
    · rename_i hqueue
      exact h.pop hqueue

theorem expire (h : Inv c) : Inv c.expire := by
  have hknows := h.knows
  rw [Connection.expire]
  split
  · rename_i hreader
    rw [hreader] at hknows
    split
    · exact h
    split
    · exact h.wake hknows
    · exact h.finish rfl (iff_of_true rfl rfl)
  · exact h

end Inv

theorem inv_step (c : Connection α) (a : Act α) (h : Inv c) : Inv (step c a) := by
  cases a with
  | handle_read block error => exact h.handle_read block error
  | fail =>
    show Inv c.fail
    rw [Connection.fail]
    split
    · exact h
    · exact ⟨h.flow, h.exposed, h.queue, h.knows, h.front, h.results⟩
  | close => exact ⟨h.flow, h.exposed, h.queue, h.knows, h.front, h.results⟩
  | read timeout_time =>
    rw [step]
    split
    · exact h.move trivial
    · exact h
  | go => exact h.go
  | expire => exact h.expire

/-- In every run, `read` returns the blocks as they were received, and gives up the socket only when
it returned them all. -/
theorem input_good (acts : List (Act α)) : Good (acts.foldl step (Connection.new : Connection α)) :=
  (List.foldlRecOn acts step inv_new fun c hc a _ => inv_step c a hc).good

end CentreonBroker.Tcp.Input
