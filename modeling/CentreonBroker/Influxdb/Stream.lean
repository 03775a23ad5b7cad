import CentreonBroker.Lib.Sink

/-!
# The InfluxDB stream

The metrics and the statuses become lines of a query, that is posted to the server when there
are enough of them. The server answers each post, in order; a post that it refuses, or that does
not reach it, throws.
-/

namespace CentreonBroker.Influxdb

/-- An event, with what it is for the stream. -/
inductive Event (M S E : Type) where
  | metric (m : M)
  | status (s : S)
  | other (e : E)

/-- The stream and its `influxdb12`, over the cache `C`. -/
structure Stream (C : Type) where
  queries_per_transaction : ℕ
  pending_queries : ℕ
  actual_query : ℕ
  commit : Bool
  cache : C
  /-- `_query`. -/
  query : List Char
  /-- The queries that the server accepted. -/
  posted : List (List Char)
  /-- The answers of the server to come: whether it accepts a post. -/
  answers : List Bool

namespace Stream

variable {C M S E : Type}

def new (queries_per_transaction : ℕ) (cache : C) (answers : List Bool) : Stream C where
  queries_per_transaction := if queries_per_transaction = 0 then 1 else queries_per_transaction
  pending_queries := 0
  actual_query := 0
  commit := false
  cache := cache
  query := []
  posted := []
  answers := answers

/-- `influxdb12::commit`. -/
def commitQuery (s : Stream C) : Option (Stream C) :=
  if s.query = [] then some s
  else match s.answers with
    | true :: answers =>
      some { s with query := [], posted := s.posted ++ [s.query], answers := answers }
    | _ => none

def flush (s : Stream C) : Option (ℕ × Stream C) :=
  (commitQuery { s with actual_query := 0, pending_queries := 0 }).map fun s' =>
    (s.pending_queries, { s' with commit := false })

/-- What the events are made of: lines, and entries of the cache. -/
structure Lines (C M S E : Type) where
  cache_write : C → Event M S E → C
  generate_metric : C → M → List Char
  generate_status : C → S → List Char

variable (lines : Lines C M S E)

def process (data : Event M S E) (s : Stream C) : Stream C :=
  let s := { s with cache := lines.cache_write s.cache data }
  let s : Stream C := match data with
    | .metric m => { s with
        query := s.query ++ lines.generate_metric s.cache m, actual_query := s.actual_query + 1 }
    | .status st => { s with
        query := s.query ++ lines.generate_status s.cache st, actual_query := s.actual_query + 1 }
    | .other _ => s
  if s.queries_per_transaction ≤ s.actual_query then { s with commit := true } else s

def write (data : Option (Event M S E)) (s : Stream C) : Option (ℕ × Stream C) :=
  let s := { s with pending_queries := s.pending_queries + 1 }
  match data with
  | none => some (0, s)
  | some data =>
    let s := process lines data s
    if s.commit then s.flush else some (0, s)

def sink : Sink (Option (Event M S E)) (Stream C) Char where
  write := write lines
  flush := flush
  pending := pending_queries
  output s := s.posted.flatten ++ s.query
  sent s := s.posted.flatten

/-! ## Accounting -/

variable {lines} {s s' : Stream C} {n : ℕ}

/-- After a flush nothing is pending, and nothing is left in the query. -/
theorem flush_eq (h : s.flush = some (n, s')) :
    n = s.pending_queries ∧ s'.pending_queries = 0 ∧ s'.query = [] ∧
      s'.posted.flatten = s.posted.flatten ++ s.query := by
  obtain ⟨s₁, hcommit, hs'⟩ := Option.map_eq_some_iff.mp h
  cases hs'
  unfold commitQuery at hcommit
  split at hcommit
  · rename_i hquery
    cases hcommit
    refine ⟨rfl, rfl, hquery, ?_⟩
    show s.posted.flatten = s.posted.flatten ++ s.query
    rw [show s.query = [] from hquery, List.append_nil]
  · split at hcommit
    · cases hcommit
      refine ⟨rfl, rfl, rfl, ?_⟩
      show (s.posted ++ [s.query]).flatten = s.posted.flatten ++ s.query
      rw [List.flatten_append, List.flatten_singleton]
    · cases hcommit

theorem process_spec (lines : Lines C M S E) (data : Event M S E) (s : Stream C) :
    (process lines data s).pending_queries = s.pending_queries ∧
      (process lines data s).posted = s.posted ∧ s.query <+: (process lines data s).query := by
  unfold process
  cases data with
  | metric m | status st => dsimp only; split <;> exact ⟨rfl, rfl, List.prefix_append ..⟩
  | other e => dsimp only; split <;> exact ⟨rfl, rfl, List.prefix_refl _⟩

theorem fair_flush (h : s.flush = some (n, s')) : (sink lines).Fair .flush s n s' := by
  obtain ⟨rfl, hpending, hquery, hposted⟩ := flush_eq h
  have houtput : s'.posted.flatten ++ s'.query = s.posted.flatten ++ s.query := by
    rw [hquery, List.append_nil, hposted]
  exact {
    count := congrArg (s.pending_queries + ·) hpending
    output := ⟨[], (List.append_nil _).trans houtput.symm⟩
    flushed := fun _ => houtput
    sent := ⟨s.query, hposted.symm⟩
    bounded := List.prefix_append ..
    settles := fun _ => by
      show s'.posted.flatten = s'.posted.flatten ++ s'.query
      rw [hquery, List.append_nil] }

theorem fair_write {data : Option (Event M S E)} (h : write lines data s = some (n, s')) :
    (sink lines).Fair (.write data) s n s' := by
  cases data with
  | none =>
    cases h
    exact .keep rfl (List.prefix_refl _) rfl (List.prefix_append ..)
  | some data =>
    obtain ⟨hpending, hposted, hquery⟩ :=
      process_spec lines data { s with pending_queries := s.pending_queries + 1 }
    have houtput : (sink lines).output s <+: (sink lines).output
        (process lines data { s with pending_queries := s.pending_queries + 1 }) := by
      show s.posted.flatten ++ s.query <+: List.flatten (Stream.posted _) ++ _
      rw [hposted]
      exact (List.prefix_append_right_inj _).mpr hquery
    have hsent := congrArg List.flatten hposted
    simp only [write] at h
    split at h
    · exact .flushed_write hpending houtput hsent (fair_flush h)
    · cases h
      exact .keep hpending houtput hsent (List.prefix_append ..)

theorem law : (sink lines).Law (fun _ => True) (fun _ _ => True) where
  fair := by
    intro c s n s' _ _ h
    cases c with
    | write data => exact fair_write h
    | flush => exact fair_flush h
  kept _ _ _ := trivial

end Stream

end CentreonBroker.Influxdb
