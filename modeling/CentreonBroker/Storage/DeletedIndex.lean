import Mathlib.Algebra.Group.Int.Defs
import Mathlib.Algebra.Group.Nat.Defs
import Mathlib.Data.List.Nodup
import Mathlib.Data.Int.Notation
import Mathlib.Data.Nat.Notation

/-!
# The cleanup of deleted indexes

`_check_deleted_index` reads the metrics of the indexes that are to be deleted, deletes these metrics
and these indexes, and has the graph of each index removed. The identifier that goes into the event
is a variable that has the name of the loop's one in the rest of the function, and that nothing sets.
Its value is a parameter.
-/

namespace CentreonBroker.Storage.DeletedIndex

/-- A row of the query: `m.index_id, m.metric_id`. -/
structure Row where
  index_id : UInt64
  metric_id : UInt64

/-- `storage::remove_graph`, whose constructor takes 32 bits. -/
structure RemoveGraph where
  id : UInt32
  is_index : Bool
  deriving DecidableEq

inductive Actions where
  | metrics
  | index_data

/-- What the function does, in order. The queries hold the number that is written in them. -/
inductive Call where
  /-- `DELETE FROM metrics WHERE metric_id={}` -/
  | delete_metric (i : ℤ) (conn : ℕ)
  /-- `DELETE FROM index_data WHERE id={}` -/
  | delete_index (i : ℤ) (conn : ℕ)
  | add_action (conn : ℕ) (action : Actions)
  | write (rg : RemoveGraph)

/-- `int64_t i`. -/
def int64 (n : UInt64) : ℤ := if n.toNat < 2 ^ 63 then n.toNat else n.toNat - 2 ^ 64

/-- An iteration over `index_to_delete`, which is an unordered set. -/
structure IndexToDelete (rows : List Row) where
  order : List UInt64
  nodup : order.Nodup
  mem_order : ∀ i, i ∈ order ↔ ∃ r ∈ rows, r.index_id = i

/-- The loop on `metrics_to_delete`. -/
def delete_metrics (conn : ℕ) (rows : List Row) : List Call :=
  rows.flatMap fun r => [.delete_metric (int64 r.metric_id) conn, .add_action conn .metrics]

/-- The loop on `index_to_delete`. -/
def delete_indexes (conn : ℕ) (index_id : UInt64) (order : List UInt64) : List Call :=
  order.flatMap fun i =>
    [.delete_index (int64 i) conn, .add_action conn .index_data,
      .write { id := index_id.toUInt32, is_index := true }]

/-- `_check_deleted_index`, where the query gives `res`. -/
def check_deleted_index (conn : ℕ) (index_id : UInt64)
    (res : Except String ((rows : List Row) × IndexToDelete rows)) : Except String (List Call) :=
  match res with
  | .error e => .error ("could not query index table to get index to delete: " ++ e)
  | .ok ⟨rows, index_to_delete⟩ =>
    .ok (delete_metrics conn rows ++ delete_indexes conn index_id index_to_delete.order)

/-! ## What is deleted -/

def Call.metric : Call → Option ℤ
  | .delete_metric i _ => some i
  | _ => none

def Call.index : Call → Option ℤ
  | .delete_index i _ => some i
  | _ => none

def Call.graph : Call → Option ℕ
  | .write rg => if rg.is_index then some rg.id.toNat else none
  | _ => none

/-- One deletion for each row, and one deletion and one event for each index. -/
structure Cleaned (rows : List Row) (calls : List Call) : Prop where
  metrics : calls.filterMap Call.metric = rows.map fun r => (r.metric_id.toNat : ℤ)
  indexes_nodup : (calls.filterMap Call.index).Nodup
  mem_indexes : ∀ i, i ∈ calls.filterMap Call.index ↔ ∃ r ∈ rows, (r.index_id.toNat : ℤ) = i
  graphs_nodup : (calls.filterMap Call.graph).Nodup
  mem_graphs : ∀ i, i ∈ calls.filterMap Call.graph ↔ ∃ r ∈ rows, r.index_id.toNat = i

section

variable (conn : ℕ) (index_id : UInt64) (rows : List Row) (order : List UInt64)

@[simp] theorem metric_delete_metrics :
    (delete_metrics conn rows).filterMap Call.metric = rows.map fun r => int64 r.metric_id := by
  induction rows with
  | nil => rfl
  | cons r rows ih => exact congrArg (int64 r.metric_id :: ·) ih

@[simp] theorem index_delete_metrics : (delete_metrics conn rows).filterMap Call.index = [] := by
  induction rows with
  | nil => rfl
  | cons r rows ih => exact ih

@[simp] theorem graph_delete_metrics : (delete_metrics conn rows).filterMap Call.graph = [] := by
  induction rows with
  | nil => rfl
  | cons r rows ih => exact ih

@[simp] theorem metric_delete_indexes :
    (delete_indexes conn index_id order).filterMap Call.metric = [] := by
  induction order with
  | nil => rfl
  | cons i order ih => exact ih

@[simp] theorem index_delete_indexes :
    (delete_indexes conn index_id order).filterMap Call.index = order.map int64 := by
  induction order with
  | nil => rfl
  | cons i order ih => exact congrArg (int64 i :: ·) ih

@[simp] theorem graph_delete_indexes :
    (delete_indexes conn index_id order).filterMap Call.graph =
      order.map fun _ => index_id.toNat % 2 ^ 32 := by
  induction order with
  | nil => rfl
  | cons i order ih => exact congrArg (index_id.toNat % 2 ^ 32 :: ·) ih

end

theorem int64_of_lt {n : UInt64} (h : n.toNat < 2 ^ 63) : int64 n = n.toNat := if_pos h

theorem lt_of_int64 {n : UInt64} (h : int64 n = n.toNat) : n.toNat < 2 ^ 63 := by
  by_contra hge
  rw [int64, if_neg hge] at h
  omega

/-- Where all that is iterated is one value, it is iterated once. -/
theorem order_of_eq {rows : List Row} (s : IndexToDelete rows) {g : UInt64}
    (h : ∀ r ∈ rows, r.index_id = g) (hrows : rows ≠ []) : s.order = [g] := by
  have hall : ∀ i ∈ s.order, i = g := by
    intro i hi
    obtain ⟨r, hr, rfl⟩ := (s.mem_order i).mp hi
    exact h r hr
  obtain ⟨r, hr⟩ := List.exists_mem_of_ne_nil rows hrows
  have hg : g ∈ s.order := (s.mem_order g).mpr ⟨r, hr, h r hr⟩
  have hrep := List.eq_replicate_iff.mpr ⟨rfl, hall⟩
  have hnodup := s.nodup
  rw [hrep] at hnodup
  have hlength := List.nodup_replicate.mp hnodup
  have hpos := List.length_pos_of_mem hg
  rw [hrep, show s.order.length = 1 by omega]
  rfl

/-- **The cleanup does what it is for exactly when the variable that nothing sets holds the identifier
of all the indexes**, in 32 bits, so that there is at most one of them, and the metrics' identifiers
fit in 63. -/
theorem check_deleted_index_iff (conn : ℕ) (index_id : UInt64) (rows : List Row)
    (s : IndexToDelete rows) :
    ∃ calls, check_deleted_index conn index_id (.ok ⟨rows, s⟩) = .ok calls ∧
      (Cleaned rows calls ↔ (∀ r ∈ rows, r.metric_id.toNat < 2 ^ 63) ∧
        ∀ r ∈ rows, r.index_id.toNat = index_id.toNat % 2 ^ 32) := by
  refine ⟨_, rfl, ?_⟩
  constructor
  · intro h
    constructor
    · intro r hr
      have hmetrics := h.metrics
      rw [List.filterMap_append, metric_delete_metrics, metric_delete_indexes, List.append_nil] at hmetrics
      exact lt_of_int64 (List.map_inj_left.mp hmetrics r hr)
    · intro r hr
      -- an event carries the index, and all events carry the variable
      have hmem := (h.mem_graphs r.index_id.toNat).mpr ⟨r, hr, rfl⟩
      rw [List.filterMap_append, graph_delete_metrics, graph_delete_indexes, List.nil_append] at hmem
      obtain ⟨_, _, heq⟩ := List.mem_map.mp hmem
      exact heq.symm
  · intro ⟨hmetric, hindex⟩
    have hmetrics : (rows.map fun r => int64 r.metric_id) = rows.map fun r => (r.metric_id.toNat : ℤ) :=
      List.map_congr_left fun r hr => int64_of_lt (hmetric r hr)
    by_cases hrows : rows = []
    · subst hrows
      have horder : s.order = [] := by
        refine List.eq_nil_iff_forall_not_mem.mpr ?_
        intro i hi
        obtain ⟨r, hr, -⟩ := (s.mem_order i).mp hi
        cases hr
      constructor <;> simp [horder]
    · obtain ⟨r, hr⟩ := List.exists_mem_of_ne_nil rows hrows
      have hsame : ∀ r' ∈ rows, r'.index_id = r.index_id := by
        intro r' hr'
        apply UInt64.toNat_inj.mp
        rw [hindex r' hr', hindex r hr]
      have horder := order_of_eq s hsame hrows
      have hsmall : int64 r.index_id = r.index_id.toNat := by
        refine int64_of_lt ?_
        have hr32 := hindex r hr
        omega
      have hexists : ∀ i : ℕ, (∃ r' ∈ rows, r'.index_id.toNat = i) ↔ i = r.index_id.toNat := by
        intro i
        constructor
        · intro ⟨r', hr', h⟩
          rw [← h, hsame r' hr']
        · intro h
          exact ⟨r, hr, h.symm⟩
      constructor
      · simp [hmetrics]
      · simp [horder]
      · intro i
        have hcast : (∃ r' ∈ rows, (r'.index_id.toNat : ℤ) = i) ↔ i = r.index_id.toNat := by
          constructor
          · intro ⟨r', hr', h⟩
            rw [← h, hsame r' hr']
          · intro h
            exact ⟨r, hr, h.symm⟩
        rw [hcast]
        simp [horder, hsmall]
      · simp [horder]
      · intro i
        rw [hexists]
        simp [horder, hindex r hr]

/-- Two indexes, with a metric each. -/
def twoRows : List Row := [⟨1, 10⟩, ⟨2, 20⟩]

def twoIndexes : IndexToDelete twoRows where
  order := [1, 2]
  nodup := by decide
  mem_order := by
    intro i
    simp [twoRows, eq_comm]

/-- With two indexes, there is no value that would do. -/
theorem not_cleaned : ¬ ∃ index_id, ∀ rows s, ∃ calls,
    check_deleted_index 0 index_id (.ok ⟨rows, s⟩) = .ok calls ∧ Cleaned rows calls := by
  intro ⟨index_id, h⟩
  obtain ⟨calls, hcalls, hcleaned⟩ := h twoRows twoIndexes
  obtain rfl := Except.ok.inj hcalls
  have hone := (hcleaned.mem_graphs 1).mpr ⟨⟨1, 10⟩, by simp [twoRows], rfl⟩
  have htwo := (hcleaned.mem_graphs 2).mpr ⟨⟨2, 20⟩, by simp [twoRows], rfl⟩
  rw [List.filterMap_append, graph_delete_metrics, graph_delete_indexes, List.nil_append] at hone htwo
  obtain ⟨_, _, heq⟩ := List.mem_map.mp hone
  obtain ⟨_, _, heq'⟩ := List.mem_map.mp htwo
  omega

end CentreonBroker.Storage.DeletedIndex
