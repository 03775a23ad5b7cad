import CentreonBroker.Lib.Sink

/-!
# The Graphite stream

The metrics and the statuses become lines, that are written to a socket when there are enough of
them, after the authentication header. A write that fails throws.
-/

namespace CentreonBroker.Graphite

/-- An event, with what it is for the stream. -/
inductive Event (M S E : Type) where
  | metric (m : M)
  | status (s : S)
  | other (e : E)

/-- The stream, over the cache `C`. -/
structure Stream (C : Type) where
  queries_per_transaction : ℕ
  pending_queries : ℕ
  actual_query : ℕ
  commit_flag : Bool
  cache : C
  auth_query : List Char
  query : List Char
  /-- What was written to the socket, without the headers. -/
  written : List Char
  /-- How the writes to come end: whether they succeed. -/
  writes : List Bool

namespace Stream

variable {C M S E : Type}

def new (queries_per_transaction : ℕ) (cache : C) (auth_query : List Char) (writes : List Bool) :
    Stream C where
  queries_per_transaction := if queries_per_transaction = 0 then 1 else queries_per_transaction
  pending_queries := 0
  actual_query := 0
  commit_flag := false
  cache := cache
  auth_query := auth_query
  query := auth_query
  written := []
  writes := writes

/-- The lines of the query. -/
def lines (s : Stream C) : List Char := s.query.drop s.auth_query.length

/-- `_commit`. -/
def commit (s : Stream C) : Option (Stream C) :=
  if s.query = [] then some s
  else match s.writes with
    | true :: writes =>
      some { s with query := s.auth_query, written := s.written ++ s.lines, writes := writes }
    | _ => none

def flush (s : Stream C) : Option (ℕ × Stream C) :=
  (if s.actual_query ≠ 0 then s.commit else some s).map fun s' =>
    (s.pending_queries, { s' with actual_query := 0, pending_queries := 0, commit_flag := false })

/-- What the events are made of: lines, and entries of the cache. -/
structure Queries (C M S E : Type) where
  cache_write : C → Event M S E → C
  generate_metric : C → M → List Char
  generate_status : C → S → List Char

/-- `_process_metric` and `_process_status`, with what their result is for. -/
def append (to_append : List Char) (s : Stream C) : Stream C :=
  { s with
    query := s.query ++ to_append
    actual_query := if to_append ≠ [] then s.actual_query + 1 else s.actual_query }

variable (queries : Queries C M S E)

def process (data : Event M S E) (s : Stream C) : Stream C :=
  let s := { s with cache := queries.cache_write s.cache data }
  let s : Stream C := match data with
    | .metric m => s.append (queries.generate_metric s.cache m)
    | .status st => s.append (queries.generate_status s.cache st)
    | .other _ => s
  if s.queries_per_transaction ≤ s.actual_query then { s with commit_flag := true } else s

def write (data : Option (Event M S E)) (s : Stream C) : Option (ℕ × Stream C) :=
  let s := { s with pending_queries := s.pending_queries + 1 }
  match data with
  | none => some (0, s)
  | some data =>
    let s := process queries data s
    if s.commit_flag then s.flush else some (0, s)

def sink : Sink (Option (Event M S E)) (Stream C) Char where
  write := write queries
  flush := flush
  pending := pending_queries
  output s := s.written ++ s.lines
  sent := written

/-! ## Accounting -/

/-- The query starts with the header, and has lines only if some are counted. -/
structure Counted (s : Stream C) : Prop where
  header : s.auth_query <+: s.query
  lines : s.actual_query = 0 → s.lines = []

theorem counted_new (queries_per_transaction : ℕ) (cache : C) (auth_query : List Char)
    (writes : List Bool) : (new queries_per_transaction cache auth_query writes).Counted :=
  ⟨List.prefix_refl _, fun _ => List.drop_length⟩

variable {queries} {s s' : Stream C} {n : ℕ}

theorem lines_append (h : s.auth_query <+: s.query) (to_append : List Char) :
    (s.append to_append).lines = s.lines ++ to_append :=
  List.drop_append_of_le_length h.length_le

theorem Counted.append (h : s.Counted) (to_append : List Char) : (s.append to_append).Counted := by
  refine ⟨h.header.trans (List.prefix_append ..), fun hzero => ?_⟩
  rw [lines_append h.header]
  by_cases hempty : to_append = []
  · have hactual : s.actual_query = 0 := (if_neg (not_not.mpr hempty)).symm.trans hzero
    rw [h.lines hactual, hempty, List.append_nil]
  · have hactual : s.actual_query + 1 = 0 := (if_pos hempty).symm.trans hzero
    omega

/-- After a flush nothing is pending, and there are no lines left. -/
theorem flush_eq (h : s.flush = some (n, s')) (hs : s.Counted) :
    n = s.pending_queries ∧ s'.pending_queries = 0 ∧ s'.lines = [] ∧
      s'.written = s.written ++ s.lines ∧ s'.auth_query <+: s'.query := by
  obtain ⟨s₁, hcommit, hs'⟩ := Option.map_eq_some_iff.mp h
  cases hs'
  by_cases hactual : s.actual_query = 0
  · rw [if_neg (not_not.mpr hactual)] at hcommit
    cases hcommit
    refine ⟨rfl, rfl, hs.lines hactual, ?_, hs.header⟩
    show s.written = s.written ++ s.lines
    rw [hs.lines hactual, List.append_nil]
  · rw [if_pos hactual] at hcommit
    unfold commit at hcommit
    split at hcommit
    · rename_i hquery
      cases hcommit
      have hlines : s.lines = [] := by
        unfold lines
        rw [hquery, List.drop_nil]
      refine ⟨rfl, rfl, hlines, ?_, hs.header⟩
      show s.written = s.written ++ s.lines
      rw [hlines, List.append_nil]
    · split at hcommit
      · cases hcommit
        exact ⟨rfl, rfl, List.drop_length, rfl, List.prefix_refl _⟩
      · cases hcommit

theorem process_spec (queries : Queries C M S E) (data : Event M S E) (hs : s.Counted) :
    (process queries data s).pending_queries = s.pending_queries ∧
      (process queries data s).written = s.written ∧
      s.lines <+: (process queries data s).lines ∧ (process queries data s).Counted := by
  -- neither the cache nor the flag is part of what is counted
  have hflag : ∀ {s₁ : Stream C}, s₁.pending_queries = s.pending_queries ∧
      s₁.written = s.written ∧ s.lines <+: s₁.lines ∧ s₁.Counted →
      let s₂ := if s₁.queries_per_transaction ≤ s₁.actual_query then
        { s₁ with commit_flag := true } else s₁
      s₂.pending_queries = s.pending_queries ∧ s₂.written = s.written ∧
        s.lines <+: s₂.lines ∧ s₂.Counted := by
    rintro s₁ ⟨hpending, hwritten, hlines, hcounted⟩
    dsimp only
    split
    · exact ⟨hpending, hwritten, hlines, ⟨hcounted.header, hcounted.lines⟩⟩
    · exact ⟨hpending, hwritten, hlines, hcounted⟩
  have hcache : ({ s with cache := queries.cache_write s.cache data } : Stream C).Counted :=
    ⟨hs.header, hs.lines⟩
  have happend : ∀ to_append,
      s.lines <+: (append to_append { s with cache := queries.cache_write s.cache data }).lines := by
    intro to_append
    rw [lines_append hcache.header]
    exact List.prefix_append ..
  unfold process
  cases data with
  | metric m | status st => exact hflag ⟨rfl, rfl, happend _, hcache.append _⟩
  | other e => exact hflag ⟨rfl, rfl, List.prefix_refl _, hcache⟩

theorem flush_counted (h : s.flush = some (n, s')) (hs : s.Counted) : s'.Counted := by
  obtain ⟨-, -, hlines, -, hheader⟩ := flush_eq h hs
  exact ⟨hheader, fun _ => hlines⟩

theorem fair_flush (h : s.flush = some (n, s')) (hs : s.Counted) :
    (sink queries).Fair .flush s n s' := by
  obtain ⟨rfl, hpending, hlines, hwritten, -⟩ := flush_eq h hs
  have houtput : s'.written ++ s'.lines = s.written ++ s.lines := by
    rw [hlines, List.append_nil, hwritten]
  exact {
    count := congrArg (s.pending_queries + ·) hpending
    output := ⟨[], (List.append_nil _).trans houtput.symm⟩
    flushed := fun _ => houtput
    sent := ⟨s.lines, hwritten.symm⟩
    bounded := List.prefix_append ..
    settles := fun _ => by
      show s'.written = s'.written ++ s'.lines
      rw [hlines, List.append_nil] }

theorem write_spec {data : Option (Event M S E)} (h : write queries data s = some (n, s'))
    (hs : s.Counted) : (sink queries).Fair (.write data) s n s' ∧ s'.Counted := by
  have hs₁ : ({ s with pending_queries := s.pending_queries + 1 } : Stream C).Counted :=
    ⟨hs.header, hs.lines⟩
  cases data with
  | none =>
    cases h
    exact ⟨.keep rfl (List.prefix_refl _) rfl (List.prefix_append ..), hs₁⟩
  | some data =>
    obtain ⟨hpending, hwritten, hlines, hcounted⟩ := process_spec queries data hs₁
    have houtput : (sink queries).output s <+: (sink queries).output
        (process queries data { s with pending_queries := s.pending_queries + 1 }) := by
      show s.written ++ s.lines <+: Stream.written _ ++ _
      rw [hwritten]
      exact (List.prefix_append_right_inj _).mpr hlines
    simp only [write] at h
    split at h
    · exact ⟨.flushed_write hpending houtput hwritten (fair_flush h hcounted),
        flush_counted h hcounted⟩
    · cases h
      exact ⟨.keep hpending houtput hwritten (List.prefix_append ..), hcounted⟩

theorem law : (sink queries).Law Counted (fun _ _ => True) where
  fair := by
    intro c s n s' hs _ h
    cases c with
    | write data => exact (write_spec h hs).1
    | flush =>
      have h : s.flush = some (n, s') := h
      exact fair_flush h hs
  kept := by
    intro c s n s' hs _ h
    cases c with
    | write data => exact (write_spec h hs).2
    | flush =>
      have h : s.flush = some (n, s') := h
      exact flush_counted h hs

end Stream

end CentreonBroker.Graphite
