import Mathlib.Logic.Basic

/-!
# Texts with a separator between them

A loop that writes a separator when there is something in front of it makes a text that is split
again, as long as no piece is empty.
-/

namespace CentreonBroker.Joined

variable {α β : Type}

/-- The loop: a separator, when the text is not empty, and a piece. -/
def join (sep : α) (f : β → List α) (text : List α) (l : List β) : List α :=
  l.foldl (fun text x => (if text ≠ [] then text ++ [sep] else text) ++ f x) text

variable {sep : α} {f : β → List α} {l : List β}

theorem join_of_ne_nil {text : List α} (htext : text ≠ []) :
    join sep f text l = text ++ l.flatMap fun x => sep :: f x := by
  induction l generalizing text with
  | nil => exact (List.append_nil text).symm
  | cons x l ih =>
    have hne : text ++ [sep] ++ f x ≠ [] := by
      intro hnil
      exact htext (List.append_eq_nil_iff.mp (List.append_eq_nil_iff.mp hnil).1).1
    rw [join, List.foldl_cons, if_pos htext, ← join, ih hne, List.flatMap_cons]
    simp only [List.append_assoc, List.cons_append, List.nil_append]

theorem intercalate_eq (a : List α) (l : List (List α)) :
    [sep].intercalate (a :: l) = a ++ l.flatMap (sep :: ·) := by
  induction l generalizing a with
  | nil => rw [List.intercalate_singleton, List.flatMap_nil, List.append_nil]
  | cons b l ih =>
    rw [List.intercalate_cons_cons, ih, List.flatMap_cons, List.append_assoc,
      List.singleton_append, List.cons_append]

/-- The separators are between the pieces, when the first one is not empty. -/
theorem join_eq_intercalate (h : ∀ x ∈ l, f x ≠ []) :
    join sep f [] l = [sep].intercalate (l.map f) := by
  cases l with
  | nil => rfl
  | cons x l =>
    have hx := h x List.mem_cons_self
    rw [join, List.foldl_cons, if_neg (not_not.mpr rfl), List.nil_append, ← join,
      join_of_ne_nil hx, List.map_cons, intercalate_eq, List.flatMap_map]

theorem join_ne_nil (h : ∀ x ∈ l, f x ≠ []) (hl : l ≠ []) : join sep f [] l ≠ [] := by
  obtain ⟨x, l, rfl⟩ := List.exists_cons_of_ne_nil hl
  rw [join_eq_intercalate h, List.map_cons, intercalate_eq]
  intro hnil
  exact h x List.mem_cons_self (List.append_eq_nil_iff.mp hnil).1

/-- **What is joined is split again.** -/
theorem splitOn_join [BEq α] [LawfulBEq α] (h : ∀ x ∈ l, f x ≠ []) (hsep : ∀ x ∈ l, sep ∉ f x) (hl : l ≠ []) :
    (join sep f [] l).splitOn sep = l.map f := by
  rw [join_eq_intercalate h]
  refine List.splitOn_intercalate sep ?_ (mt List.map_eq_nil_iff.mp hl)
  intro s hs
  obtain ⟨x, hx, rfl⟩ := List.mem_map.mp hs
  exact hsep x hx

end CentreonBroker.Joined
