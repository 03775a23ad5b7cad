import Mathlib

/-!
# A queue that delivers again until it is acknowledged

What such a queue is for, whatever it keeps its elements in: elements are
published one after the other, delivered in that order, and dropped once they are
acknowledged. Giving up on what was delivered and not acknowledged makes all of
it to be delivered again.

An element is told by its rank, so that equal elements are not confused. Three
ranks are all the state there is, and the order they are in is the safety of the
queue: what is acknowledged was delivered, what is delivered was published.
-/

namespace CentreonBroker

structure AckQueue (α : Type) where
  /-- All that was ever published, oldest first. -/
  published : List α
  /-- The rank delivery last started again from. -/
  base : Nat
  /-- How many elements are acknowledged. -/
  acked : Nat
  /-- The rank of the next element to deliver. -/
  cursor : Nat
  base_le : base ≤ acked
  acked_le : acked ≤ cursor
  cursor_le : cursor ≤ published.length

namespace AckQueue

variable {α : Type}

/-- A queue that nothing was delivered from. -/
def start (l : List α) : AckQueue α :=
  ⟨l, 0, 0, 0, Nat.le_refl 0, Nat.le_refl 0, Nat.zero_le _⟩

def publish (q : AckQueue α) (a : α) : AckQueue α where
  published := q.published ++ [a]
  base := q.base
  acked := q.acked
  cursor := q.cursor
  base_le := q.base_le
  acked_le := q.acked_le
  cursor_le := by
    rw [List.length_append]
    exact Nat.le_add_right_of_le q.cursor_le

/-- The element to deliver. -/
def next (q : AckQueue α) : Option α := q.published[q.cursor]?

/-- Delivers the next element, if there is one. -/
def deliver (q : AckQueue α) : AckQueue α :=
  if h : q.cursor < q.published.length then
    { q with
      cursor := q.cursor + 1
      acked_le := Nat.le_succ_of_le q.acked_le
      cursor_le := h }
  else q

/-- Acknowledges some elements, of those that were delivered. -/
def ack (q : AckQueue α) (n : Nat) : AckQueue α :=
  { q with
    acked := min (q.acked + n) q.cursor
    base_le := by
      have h1 := q.base_le
      have h2 := q.acked_le
      omega
    acked_le := Nat.min_le_right _ _ }

/-- Starts again from the first element that is not acknowledged. -/
def nack (q : AckQueue α) : AckQueue α :=
  { q with
    base := q.acked
    cursor := q.acked
    base_le := Nat.le_refl _
    acked_le := Nat.le_refl _
    cursor_le := Nat.le_trans q.acked_le q.cursor_le }

/-- What is not acknowledged. -/
def pending (q : AckQueue α) : List α := q.published.drop q.acked

/-- What was delivered since delivery last started again. -/
def window (q : AckQueue α) : List α := (q.published.take q.cursor).drop q.base

@[simp] theorem window_start (l : List α) : (start l).window = [] := by
  simp [window, start]

@[simp] theorem pending_publish (q : AckQueue α) (a : α) :
    (q.publish a).pending = q.pending ++ [a] :=
  List.drop_append_of_le_length (Nat.le_trans q.acked_le q.cursor_le)

@[simp] theorem window_publish (q : AckQueue α) (a : α) : (q.publish a).window = q.window := by
  rw [window, publish, List.take_append_of_le_length q.cursor_le, window]

@[simp] theorem pending_nack (q : AckQueue α) : q.nack.pending = q.pending := rfl

@[simp] theorem window_nack (q : AckQueue α) : q.nack.window = [] := by
  rw [window, nack]
  exact List.drop_of_length_le (List.length_take_le _ _)

theorem pending_ack (q : AckQueue α) (n : Nat) :
    (q.ack n).pending = q.pending.drop (min n (q.cursor - q.acked)) := by
  have h := q.acked_le
  rw [pending, pending, ack, List.drop_drop]
  congr 1
  show min (q.acked + n) q.cursor = q.acked + min n (q.cursor - q.acked)
  omega

@[simp] theorem ack_zero (q : AckQueue α) : q.ack 0 = q := by
  unfold ack
  congr 1
  exact Nat.min_eq_left q.acked_le

/-- The next element stands in what is not acknowledged, after what was delivered of it. -/
theorem next_eq (q : AckQueue α) : q.next = q.pending[q.cursor - q.acked]? := by
  have h := q.acked_le
  rw [next, pending, List.getElem?_drop]
  congr 1
  omega

theorem deliver_of_next {q : AckQueue α} {a : α} (h : q.next = some a) :
    q.deliver.published = q.published ∧ q.deliver.base = q.base ∧
      q.deliver.acked = q.acked ∧ q.deliver.cursor = q.cursor + 1 := by
  have hlt : q.cursor < q.published.length := (List.getElem?_eq_some_iff.mp h).1
  rw [deliver, dif_pos hlt]
  exact ⟨rfl, rfl, rfl, rfl⟩

/-- **Elements are delivered one after the other**, none skipped and none twice. -/
theorem window_deliver {q : AckQueue α} {a : α} (h : q.next = some a) :
    q.deliver.window = q.window ++ [a] := by
  obtain ⟨h1, h2, _, h4⟩ := deliver_of_next h
  have hb := Nat.le_trans q.base_le q.acked_le
  have hc := q.cursor_le
  obtain ⟨hlt, rfl⟩ := List.getElem?_eq_some_iff.mp h
  rw [window, h1, h2, h4, window, List.take_succ_eq_append_getElem hlt]
  refine List.drop_append_of_le_length ?_
  rw [List.length_take]
  omega

end AckQueue

end CentreonBroker
