import CentreonBroker.Storage.ConflictManager

/-!
# The main loop of the conflict manager

A turn of the main loop empties the four queues, passes events to their handlers until there were
enough of them or it took too long, then commits and counts what can be acknowledged. A handler
that throws ends the turn.

Times are in milliseconds. The clock advances while a handler works, and when the loop sleeps.
-/

namespace CentreonBroker.Storage

/-- What the handler of an event does with it. -/
inductive Handling (R : Type) where
  /-- Most handlers: their statements are run, and the boolean is set. -/
  | direct (statements : List R)
  /-- `_process_custom_variable`, where the variable is enabled. -/
  | custom_variable (row : R)
  /-- `_process_log`. -/
  | log (row : R)
  /-- `_storage_process_service_status`. -/
  | service_status (statements : List R) (metrics : List (ℕ × R)) (perfdata : List R)
  /-- An exception ends the handler, after this. -/
  | throws (statements : List R) (metrics : List (ℕ × R)) (perfdata : List R) (gone_away : Bool)

/-- A write to the database. -/
inductive Write (R : Type) where
  | statement (r : R)
  /-- A row of the query of `_update_metrics`. -/
  | metric (metric_id : ℕ) (r : R)
  /-- Of `_insert_perfdatas`. -/
  | perfdata (r : R)
  /-- Of `_update_customvariables`. -/
  | custom_variable (r : R)
  /-- Of `_insert_logs`. -/
  | log (r : R)

namespace Handling

variable {R : Type}

/-- What is to be written for an event. -/
def writes : Handling R → List (Write R)
  | direct statements => statements.map .statement
  | custom_variable row => [.custom_variable row]
  | log row => [.log row]
  | service_status statements metrics perfdata | throws statements metrics perfdata _ =>
    statements.map .statement ++ (metrics.map (fun m => .metric m.1 m.2) ++ perfdata.map .perfdata)

/-- What the handler runs itself. -/
def statements : Handling R → List R
  | direct statements | service_status statements _ _ | throws statements _ _ _ => statements
  | _ => []

def metrics : Handling R → List (ℕ × R)
  | service_status _ metrics _ | throws _ metrics _ _ => metrics
  | _ => []

def perfdata : Handling R → List R
  | service_status _ _ perfdata | throws _ _ perfdata _ => perfdata
  | _ => []

def outcome : Handling R → Outcome
  | direct _ | service_status _ _ _ => .processed
  | custom_variable _ | log _ => .queued
  | throws _ _ _ _ => .throws

end Handling

structure LoopConfig where
  loop_timeout : ℕ
  max_pending_queries : ℕ
  max_perfdata_queries : ℕ
  max_metrics_queries : ℕ
  max_cv_queries : ℕ
  max_log_queries : ℕ

/-- The variables of a turn. -/
structure Turn where
  now0 : ℕ
  count : ℕ
  timeout : ℕ
  next_insert_perfdatas : ℕ
  next_update_metrics : ℕ
  next_update_cv : ℕ
  next_update_log : ℕ
  /-- The batching loop found no event, and did not sleep yet. -/
  waits : Bool
  /-- It was left by its `break`. -/
  left : Bool

structure MainLoop (T R : Type) where
  base : Sources T 2
  /-- `events`, of the loop. -/
  events : List (Element T 2)
  perfdata_queue : List (Element T 2 × R)
  /-- The rows that were put in `_metrics` since it was emptied: it has the last of each metric. -/
  metrics : List (Element T 2 × ℕ × R)
  cv_queue : List (Element T 2 × R)
  log_queue : List (Element T 2 × R)
  /-- All that was sent to the database, with the event that it is for. -/
  sent : List (Element T 2 × Write R)
  /-- The turn, between its beginning and its commit. -/
  turn : Option Turn
  now : ℕ
  exit : Bool
  broken : Bool
  taken : List (Element T 2)
  handled : List (Element T 2)
  thrown : List (Element T 2)
  lost : List (Element T 2)

namespace MainLoop

variable {T R : Type}

def start (ack : Fin 2 → ℤ) (now : ℕ) : MainLoop T R :=
  ⟨Sources.start ack, [], [], [], [], [], [], none, now, false, false, [], [], [], []⟩

/-- `_should_exit`. -/
def should_exit (m : MainLoop T R) : Bool := m.broken || (m.exit && m.base.fifo.events.isEmpty)

/-! ## The queues -/

/-- `_insert_perfdatas`. -/
def insert_perfdatas (m : MainLoop T R) : MainLoop T R :=
  { m with
    sent := m.sent ++ m.perfdata_queue.map fun p => (p.1, .perfdata p.2)
    perfdata_queue := [] }

/-- `_update_metrics`. Its query has one row for a metric: those that a later one of the same metric has
replaced are taken to be written with it. -/
def update_metrics (m : MainLoop T R) : MainLoop T R :=
  { m with
    sent := m.sent ++ m.metrics.map fun p => (p.1, .metric p.2.1 p.2.2)
    metrics := [] }

/-- The booleans of the events of a queue are set. -/
def setFlags (queue : List (Element T 2 × R)) (base : Sources T 2) : Sources T 2 :=
  queue.foldl (fun base p => Sources.setFlag p.1 base) base

/-- `_update_customvariables`. -/
def update_customvariables (m : MainLoop T R) : MainLoop T R :=
  { m with
    sent := m.sent ++ m.cv_queue.map fun p => (p.1, .custom_variable p.2)
    base := setFlags m.cv_queue m.base
    cv_queue := [] }

/-- `_insert_logs`. -/
def insert_logs (m : MainLoop T R) : MainLoop T R :=
  { m with
    sent := m.sent ++ m.log_queue.map fun p => (p.1, .log p.2)
    base := setFlags m.log_queue m.base
    log_queue := [] }

/-- How many metrics `_metrics` has. -/
def metricsSize (m : MainLoop T R) : ℕ := (m.metrics.map (·.2.1)).dedup.length

/-! ## A turn -/

variable (cfg : LoopConfig)

/-- The batching loop is at its beginning, and its condition holds. -/
def goesOn (t : Turn) : Prop :=
  t.left = false ∧ t.count < cfg.max_pending_queries ∧ t.timeout < cfg.loop_timeout * 1000

instance (t : Turn) : Decidable (goesOn cfg t) := inferInstanceAs (Decidable (_ ∧ _))

/-- The beginning of a turn. -/
def begin (m : MainLoop T R) : MainLoop T R :=
  let m := m.insert_perfdatas.update_metrics.update_customvariables.insert_logs
  let next := m.now / 1000
  { m with turn := some ⟨m.now, 0, 0, next, next, next, next, false, false⟩ }

/-- The batching loop looks for events. -/
def look (t : Turn) (m : MainLoop T R) : MainLoop T R :=
  let (events, fifo) := m.base.fifo.first_events
  { m with
    base := { m.base with fifo := fifo }
    events := events
    taken := m.taken ++ events
    turn := some { t with waits := events.isEmpty } }

/-- There are none: the loop is left, or it sleeps. -/
def wait (t : Turn) (m : MainLoop T R) : MainLoop T R :=
  if m.should_exit then { m with turn := some { t with waits := false, left := true } }
  else { m with turn := some { t with waits := false }, now := m.now + 500 }

/-- What the handler of an event runs, and what it puts in the queues. -/
def handleEvent (o : Handling R) (el : Element T 2) (m : MainLoop T R) : MainLoop T R :=
  { m with
    sent := m.sent ++ o.statements.map fun r => (el, .statement r)
    metrics := m.metrics ++ o.metrics.map fun r => (el, r)
    perfdata_queue := m.perfdata_queue ++ o.perfdata.map fun r => (el, r)
    cv_queue := m.cv_queue ++ (match o with | .custom_variable row => [(el, row)] | _ => [])
    log_queue := m.log_queue ++ (match o with | .log row => [(el, row)] | _ => [])
    base := match o.outcome with | .processed => Sources.setFlag el m.base | _ => m.base
    handled := m.handled ++ [el] }

/-! ### The queues that are long

They are emptied, if they were not for ten seconds. -/

def flushPerfdatas (t : Turn) (m : MainLoop T R) : Turn × MainLoop T R :=
  if t.next_insert_perfdatas ≤ m.now / 1000 ∧ cfg.max_perfdata_queries < m.perfdata_queue.length then
    ({ t with next_insert_perfdatas := m.now / 1000 + 10 }, m.insert_perfdatas)
  else (t, m)

def flushMetrics (t : Turn) (m : MainLoop T R) : Turn × MainLoop T R :=
  if t.next_update_metrics ≤ m.now / 1000 ∧ cfg.max_metrics_queries < m.metricsSize then
    ({ t with next_update_metrics := m.now / 1000 + 10 }, m.update_metrics)
  else (t, m)

def flushCustomvariables (t : Turn) (m : MainLoop T R) : Turn × MainLoop T R :=
  if t.next_update_cv ≤ m.now / 1000 ∧ cfg.max_cv_queries < m.cv_queue.length then
    ({ t with next_update_cv := m.now / 1000 + 10 }, m.update_customvariables)
  else (t, m)

def flushLogs (t : Turn) (m : MainLoop T R) : Turn × MainLoop T R :=
  if t.next_update_log ≤ m.now / 1000 ∧ cfg.max_log_queries < m.log_queue.length then
    ({ t with next_update_log := m.now / 1000 + 10 }, m.insert_logs)
  else (t, m)

def flushLong (t : Turn) (m : MainLoop T R) : Turn × MainLoop T R :=
  let (t, m) := flushPerfdatas cfg t m
  let (t, m) := flushMetrics cfg t m
  let (t, m) := flushCustomvariables cfg t m
  flushLogs cfg t m

/-- Once an event is handled, it is counted, and the time is measured. -/
def counted (t : Turn) (m : MainLoop T R) : MainLoop T R :=
  let (t, m) := flushLong cfg { t with count := t.count + 1 } m
  { m with turn := some { t with timeout := m.now - t.now0 } }

/-- An event is passed to its handler, which takes some time. -/
def handle (o : Handling R) (el : Element T 2) (rest : List (Element T 2)) (time : ℕ) (t : Turn)
    (m : MainLoop T R) : MainLoop T R :=
  let m := { m.handleEvent o el with events := rest, now := m.now + time }
  match o with
  | .throws _ _ _ gone_away => { m with
      thrown := m.thrown ++ [el], lost := m.lost ++ rest, events := [], turn := none
      broken := m.broken || gone_away }
  | _ => counted cfg t m

/-- `_finish_actions`. -/
def finish_actions (m : MainLoop T R) : MainLoop T R :=
  { m with base := (m.base.clean sql).clean storage, turn := none }

/-! ## Runs -/

/-- What the streams and the loop do. -/
inductive Step (T : Type) where
  | send_event (c : Fin 2) (e : T) (address : ℕ)
  | get_acks (c : Fin 2)
  /-- `__exit`. -/
  | exit
  | begin
  | look
  | wait
  | handle (time : ℕ)
  | finish_actions

variable (handling : Element T 2 → Handling R)

def step (m : MainLoop T R) : Step T → Option (MainLoop T R)
  | .send_event c e address =>
    (m.base.step (.push c e address)).map fun base => { m with base := base }
  | .get_acks c => some { m with base := m.base.get_acks c }
  | .exit => some { m with exit := true }
  | .begin => if m.turn.isNone ∧ ¬ m.should_exit then some m.begin else none
  | .look => m.turn.bind fun t =>
      if m.events.isEmpty ∧ t.waits = false ∧ goesOn cfg t then some (m.look t) else none
  | .wait => m.turn.bind fun t => if t.waits then some (m.wait t) else none
  | .handle time => m.turn.bind fun t =>
      match m.events with
      | [] => none
      | el :: rest => some (m.handle cfg (handling el) el rest time t)
  | .finish_actions => m.turn.bind fun t =>
      if m.events.isEmpty ∧ t.waits = false ∧ ¬ goesOn cfg t then some m.finish_actions else none

def run : List (Step T) → MainLoop T R → Option (MainLoop T R)
  | [], m => some m
  | a :: acts, m => (m.step cfg handling a).bind (run acts)

variable {cfg} {handling} {m m' : MainLoop T R} {a : Step T}

/-- What each of the queues keeps when it is emptied, all do. -/
theorem flushLong_keeps (cfg : LoopConfig) {P : Turn → MainLoop T R → Prop} {t : Turn}
    (hperfdatas : ∀ t m n, P t m → P { t with next_insert_perfdatas := n } m.insert_perfdatas)
    (hmetrics : ∀ t m n, P t m → P { t with next_update_metrics := n } m.update_metrics)
    (hcv : ∀ t m n, P t m → P { t with next_update_cv := n } m.update_customvariables)
    (hlogs : ∀ t m n, P t m → P { t with next_update_log := n } m.insert_logs) (h : P t m) :
    P (flushLong cfg t m).1 (flushLong cfg t m).2 := by
  have hfirst : ∀ t m, P t m → P (flushPerfdatas cfg t m).1 (flushPerfdatas cfg t m).2 := by
    intro t m h
    unfold flushPerfdatas
    split
    · exact hperfdatas t m _ h
    · exact h
  have hsecond : ∀ t m, P t m → P (flushMetrics cfg t m).1 (flushMetrics cfg t m).2 := by
    intro t m h
    unfold flushMetrics
    split
    · exact hmetrics t m _ h
    · exact h
  have hthird : ∀ t m, P t m →
      P (flushCustomvariables cfg t m).1 (flushCustomvariables cfg t m).2 := by
    intro t m h
    unfold flushCustomvariables
    split
    · exact hcv t m _ h
    · exact h
  have hlast : ∀ t m, P t m → P (flushLogs cfg t m).1 (flushLogs cfg t m).2 := by
    intro t m h
    unfold flushLogs
    split
    · exact hlogs t m _ h
    · exact h
  exact hlast _ _ (hthird _ _ (hsecond _ _ (hfirst t m h)))

/-- What a step does. -/
theorem step_cases (h : m.step cfg handling a = some m') :
    (∃ c e address base, a = .send_event c e address ∧
      m.base.step (.push c e address) = some base ∧ m' = { m with base := base }) ∨
    (∃ c, a = .get_acks c ∧ m' = { m with base := m.base.get_acks c }) ∨
    (a = .exit ∧ m' = { m with exit := true }) ∨
    (a = .begin ∧ m.turn = none ∧ m' = m.begin) ∨
    (∃ t, a = .look ∧ m.turn = some t ∧ m.events = [] ∧ t.waits = false ∧ goesOn cfg t ∧
      m' = m.look t) ∨
    (∃ t, a = .wait ∧ m.turn = some t ∧ t.waits = true ∧ m' = m.wait t) ∨
    (∃ time t el rest, a = .handle time ∧ m.turn = some t ∧ m.events = el :: rest ∧
      m' = m.handle cfg (handling el) el rest time t) ∨
    ∃ t, a = .finish_actions ∧ m.turn = some t ∧ m.events = [] ∧ t.waits = false ∧
      ¬ goesOn cfg t ∧ m' = m.finish_actions := by
  cases a with
  | send_event c e address =>
    obtain ⟨base, hbase, rfl⟩ := Option.map_eq_some_iff.mp h
    exact .inl ⟨c, e, address, base, rfl, hbase, rfl⟩
  | get_acks c =>
    cases h
    exact .inr (.inl ⟨c, rfl, rfl⟩)
  | exit =>
    cases h
    exact .inr (.inr (.inl ⟨rfl, rfl⟩))
  | begin =>
    simp only [step] at h
    split at h
    · rename_i hbegin
      cases h
      exact .inr (.inr (.inr (.inl ⟨rfl, Option.isNone_iff_eq_none.mp hbegin.1, rfl⟩)))
    · cases h
  | look =>
    obtain ⟨t, hturn, h⟩ := Option.bind_eq_some_iff.mp h
    split at h
    · rename_i hlook
      cases h
      exact .inr (.inr (.inr (.inr (.inl
        ⟨t, rfl, hturn, List.isEmpty_iff.mp hlook.1, hlook.2.1, hlook.2.2, rfl⟩))))
    · cases h
  | wait =>
    obtain ⟨t, hturn, h⟩ := Option.bind_eq_some_iff.mp h
    split at h
    · rename_i hwaits
      cases h
      exact .inr (.inr (.inr (.inr (.inr (.inl ⟨t, rfl, hturn, hwaits, rfl⟩)))))
    · cases h
  | handle time =>
    obtain ⟨t, hturn, h⟩ := Option.bind_eq_some_iff.mp h
    split at h
    · cases h
    · rename_i el rest hevents
      cases h
      exact .inr (.inr (.inr (.inr (.inr (.inr (.inl
        ⟨time, t, el, rest, rfl, hturn, hevents, rfl⟩))))))
  | finish_actions =>
    obtain ⟨t, hturn, h⟩ := Option.bind_eq_some_iff.mp h
    split at h
    · rename_i hfinish
      cases h
      exact .inr (.inr (.inr (.inr (.inr (.inr (.inr
        ⟨t, rfl, hturn, List.isEmpty_iff.mp hfinish.1, hfinish.2.1, hfinish.2.2, rfl⟩))))))
    · cases h

theorem run_append {pre post : List (Step T)} :
    run cfg handling (pre ++ post) m =
      (run cfg handling pre m).bind (run cfg handling post) := by
  induction pre generalizing m with
  | nil => rfl
  | cons a pre ih =>
    show (m.step cfg handling a).bind _ = ((m.step cfg handling a).bind _).bind _
    rw [Option.bind_assoc]
    exact congrArg _ (funext fun m => ih)

end MainLoop

end CentreonBroker.Storage
