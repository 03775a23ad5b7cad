import Mathlib

/-!
# Lists of named nodes that form a forest

The nodes of a list have names, and each node gives the names of what is below it. The list is
a forest when the names are distinct, each name that is used belongs to a node, nobody is used
twice, and nobody is below itself. A part of a forest that has all that is below its nodes is a
forest too.
-/

namespace CentreonBroker.Forest

variable {α β : Type} (name : α → β) (below : α → List β)

/-- Who is directly below whom. -/
def Uses (l : List α) (b c : β) : Prop := ∃ a ∈ l, name a = b ∧ c ∈ below a

/-- What is below the nodes is in the list. -/
def Closed (l : List α) : Prop := ∀ a ∈ l, ∀ b ∈ below a, b ∈ l.map name

/-- A node that nobody uses. -/
def IsRoot (l : List α) (a : α) : Prop := name a ∉ l.flatMap below

structure IsForest (l : List α) : Prop where
  names : (l.map name).Nodup
  closed : Closed name below l
  single : (l.flatMap below).Nodup
  acyclic : ∀ b, ¬ Relation.TransGen (Uses name below l) b b

variable {name below} {l l₁ l₂ : List α}

theorem Uses.mono (h : l₁ ⊆ l₂) {b c : β} (huses : Uses name below l₁ b c) :
    Uses name below l₂ b c := by
  obtain ⟨a, ha, hname, hc⟩ := huses
  exact ⟨a, h ha, hname, hc⟩

/-- Two nodes of one name are one node. -/
theorem eq_of_name (hnames : (l.map name).Nodup) {a b : α} (ha : a ∈ l) (hb : b ∈ l)
    (h : name a = name b) : a = b :=
  List.inj_on_of_nodup_map hnames ha hb h

/-- Names that go down along a measure do not come back. -/
theorem acyclic_of_measure {l : List α} (f : β → ℕ)
    (h : ∀ b c, Uses name below l b c → f c < f b) (b : β) :
    ¬ Relation.TransGen (Uses name below l) b b := by
  have hlt : ∀ c, Relation.TransGen (Uses name below l) b c → f c < f b := by
    intro c hc
    induction hc with
    | single huses => exact h b _ huses
    | tail _ huses ih => exact (h _ _ huses).trans ih
  exact fun hb => absurd (hlt b hb) (Nat.lt_irrefl _)

namespace IsForest

theorem perm (h : IsForest name below l₁) (hperm : l₁.Perm l₂) : IsForest name below l₂ where
  names := (hperm.map name).nodup_iff.mp h.names
  closed a ha b hb := (hperm.map name).subset (h.closed a (hperm.symm.subset ha) b hb)
  single := (hperm.flatMap_right below).nodup_iff.mp h.single
  acyclic b hb := h.acyclic b (hb.lift id fun _ _ => Uses.mono hperm.symm.subset)

theorem left (h : IsForest name below (l₁ ++ l₂)) (hclosed : Closed name below l₁) :
    IsForest name below l₁ where
  names := by
    have hnames := h.names
    rw [List.map_append] at hnames
    exact hnames.of_append_left
  closed := hclosed
  single := by
    have hsingle := h.single
    rw [List.flatMap_append] at hsingle
    exact hsingle.of_append_left
  acyclic b hb := h.acyclic b (hb.lift id fun _ _ => Uses.mono (List.subset_append_left l₁ l₂))

theorem right (h : IsForest name below (l₁ ++ l₂)) (hclosed : Closed name below l₂) :
    IsForest name below l₂ :=
  (h.perm List.perm_append_comm).left hclosed

/-- In a list without what another closed list has, the roots are roots of the whole. -/
theorem isRoot_of_append (h : IsForest name below (l₁ ++ l₂)) (hclosed : Closed name below l₁) {a : α}
    (ha : a ∈ l₂) (hroot : IsRoot name below l₂ a) : IsRoot name below (l₁ ++ l₂) a := by
  intro hmem
  rw [List.flatMap_append, List.mem_append] at hmem
  rcases hmem with hmem | hmem
  · obtain ⟨b, hb, hused⟩ := List.mem_flatMap.mp hmem
    obtain ⟨c, hc, hname⟩ := List.mem_map.mp (hclosed b hb _ hused)
    have hnames := h.names
    rw [List.map_append] at hnames
    have hdisjoint := List.disjoint_of_nodup_append hnames
    exact hdisjoint (List.mem_map_of_mem hc) (hname ▸ List.mem_map_of_mem ha)
  · exact hroot hmem

open Classical in
/-- How many names are below a name. -/
noncomputable def rank (name : α → β) (below : α → List β) (l : List α) (b : β) : ℕ :=
  ((l.map name).toFinset.filter fun c => Relation.TransGen (Uses name below l) b c).card

theorem rank_le (b : β) : rank name below l b ≤ l.length := by
  classical
  unfold rank
  calc _ ≤ (l.map name).toFinset.card := Finset.card_filter_le _ _
    _ ≤ (l.map name).length := List.toFinset_card_le _
    _ = l.length := List.length_map ..

theorem rank_lt (h : IsForest name below l) {b c : β} (huses : Uses name below l b c) :
    rank name below l c < rank name below l b := by
  classical
  have hc : c ∈ l.map name := by
    obtain ⟨a, ha, -, hused⟩ := huses
    exact h.closed a ha c hused
  refine Finset.card_lt_card ⟨fun d hd => ?_, fun hsub => ?_⟩
  · rw [Finset.mem_filter] at hd ⊢
    exact ⟨hd.1, .head huses hd.2⟩
  · -- what is used is below its user, and not below itself
    have hmem := hsub (Finset.mem_filter.mpr ⟨List.mem_toFinset.mpr hc, .single huses⟩)
    exact h.acyclic c (Finset.mem_filter.mp hmem).2

/-- A node of the highest rank is a root. -/
theorem exists_root (h : IsForest name below l) (hne : l ≠ []) : ∃ a ∈ l, IsRoot name below l a := by
  cases hmax : l.argmax fun a => rank name below l (name a) with
  | none => exact absurd (List.argmax_eq_none.mp hmax) hne
  | some a =>
    refine ⟨a, List.argmax_mem hmax, fun hmem => ?_⟩
    obtain ⟨b, hb, hused⟩ := List.mem_flatMap.mp hmem
    have hlt := h.rank_lt ⟨b, hb, rfl, hused⟩
    have hle := List.le_of_mem_argmax hb hmax
    exact absurd hle (Nat.not_le.mpr hlt)

end IsForest

end CentreonBroker.Forest
