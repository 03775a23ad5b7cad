import Mathlib

/-!
# Depth-first search for a cycle

A visit marks a node while its targets are visited, and again once they all are. It ends at
the first node that is met while it is being visited. So a search over all nodes finds a
cycle if and only if there is one, and it always ends: a chain of visits is no longer than
there are nodes.
-/

namespace CentreonBroker.DepthFirst

open Finset

variable {α : Type}

/-- The marks on the nodes. -/
structure Marks (α : Type) where
  in_visit : Finset α
  visited : Finset α

/-- How a visit ends. `exhausted` is no end: there was no fuel for it. -/
inductive Outcome (α : Type) where
  | exhausted
  | loop
  | done (m : Marks α)

/-- Visits one after the other, up to the first that does not end well. -/
def visitAll (f : α → Marks α → Outcome α) : List α → Marks α → Outcome α
  | [], m => .done m
  | x :: xs, m =>
    match f x m with
    | .done m => visitAll f xs m
    | o => o

/-- The visit of a node. What is no node has no targets, and is skipped. -/
def visit [DecidableEq α] (targets : α → Option (List α)) : ℕ → α → Marks α → Outcome α
  | 0, _, _ => .exhausted
  | fuel + 1, n, m =>
    match targets n with
    | none => .done m
    | some ts =>
      if n ∈ m.in_visit then .loop
      else if n ∈ m.visited then .done m
      else
        match visitAll (visit targets fuel) ts { m with in_visit := insert n m.in_visit } with
        | .done m => .done ⟨m.in_visit.erase n, insert n m.visited⟩
        | o => o

/-- The search: visits of all nodes that no visit before came to. -/
def search [DecidableEq α] (targets : α → Option (List α)) (fuel : ℕ) (order : List α) :
    Outcome α :=
  visitAll (fun n m => if n ∈ m.visited then .done m else visit targets fuel n m) order ⟨∅, ∅⟩

/-- An edge of the graph. -/
def Edge (targets : α → Option (List α)) (x y : α) : Prop := ∃ ts, targets x = some ts ∧ y ∈ ts

/-! ## Visits one after the other -/

section VisitAll

variable {f : α → Marks α → Outcome α}

/-- What does not end well does so at one of the visits. -/
theorem visitAll_of_not_done {o : Outcome α} (ho : ∀ m, o ≠ .done m)
    (hf : ∀ x m m', f x m = .done m' → m'.in_visit = m.in_visit) {l : List α} {m : Marks α}
    (h : visitAll f l m = o) : ∃ x ∈ l, ∃ m', m'.in_visit = m.in_visit ∧ f x m' = o := by
  induction l generalizing m with
  | nil => exact absurd h.symm (ho m)
  | cons x xs ih =>
    rw [visitAll] at h
    cases hx : f x m with
    | done m' =>
      rw [hx] at h
      obtain ⟨y, hy, m'', hm'', heq⟩ := ih h
      exact ⟨y, List.mem_cons_of_mem x hy, m'', hm''.trans (hf x m m' hx), heq⟩
    | loop | exhausted =>
      rw [hx] at h
      exact ⟨x, List.mem_cons_self, m, rfl, hx.trans h⟩

/-- What each visit keeps is kept by all, and what each one reaches stays reached. -/
theorem visitAll_done {R : Marks α → Marks α → Prop} (hrefl : ∀ m, R m m)
    (htrans : ∀ m m' m'', R m m' → R m' m'' → R m m'') {P : α → Marks α → Prop}
    (hmono : ∀ x m m', R m m' → P x m → P x m')
    (hf : ∀ x m m', f x m = .done m' → R m m' ∧ P x m') {l : List α} {m m' : Marks α}
    (h : visitAll f l m = .done m') : R m m' ∧ ∀ x ∈ l, P x m' := by
  induction l generalizing m with
  | nil =>
    obtain rfl := Outcome.done.inj h
    exact ⟨hrefl m, fun x hx => absurd hx List.not_mem_nil⟩
  | cons x xs ih =>
    rw [visitAll] at h
    cases hx : f x m with
    | done m₁ =>
      rw [hx] at h
      obtain ⟨hR, hP⟩ := hf x m m₁ hx
      obtain ⟨hR', hP'⟩ := ih h
      refine ⟨htrans m m₁ m' hR hR', fun y hy => ?_⟩
      rcases List.mem_cons.mp hy with rfl | hy
      · exact hmono y m₁ m' hR' hP
      · exact hP' y hy
    | loop =>
      rw [hx] at h
      cases h
    | exhausted =>
      rw [hx] at h
      cases h

end VisitAll

/-! ## What is visited -/

variable {targets : α → Option (List α)}

/-- What the visited nodes are. -/
structure Settled (targets : α → Option (List α)) (m : Marks α) : Prop where
  disjoint : ∀ x ∈ m.in_visit, x ∉ m.visited
  closed : ∀ x ∈ m.visited, ∀ y, Edge targets x y → (targets y).isSome → y ∈ m.visited
  acyclic : ∀ x ∈ m.visited, ¬Relation.TransGen (Edge targets) x x

/-- What visits keep. -/
structure Grown (targets : α → Option (List α)) (m m' : Marks α) : Prop where
  in_visit : m'.in_visit = m.in_visit
  visited : m.visited ⊆ m'.visited
  settled : Settled targets m → Settled targets m'

theorem Grown.refl (m : Marks α) : Grown targets m m := ⟨rfl, fun _ h => h, fun h => h⟩

variable {m m' : Marks α}

theorem Grown.trans {m'' : Marks α} (h : Grown targets m m') (h' : Grown targets m' m'') :
    Grown targets m m'' :=
  ⟨h'.in_visit.trans h.in_visit, h.visited.trans h'.visited, fun hs => h'.settled (h.settled hs)⟩

theorem isSome_of_reach {x y : α} (h : Relation.TransGen (Edge targets) x y) :
    (targets x).isSome := by
  obtain ⟨z, ⟨ts, hts, -⟩, -⟩ := Relation.TransGen.head'_iff.mp h
  rw [hts]
  rfl

/-- What can be reached from a visited node is visited, if it is a node. -/
theorem Settled.reach (h : Settled targets m) {x y : α} (hx : x ∈ m.visited)
    (hreach : Relation.ReflTransGen (Edge targets) x y) (hy : (targets y).isSome) :
    y ∈ m.visited := by
  induction hreach with
  | refl => exact hx
  | @tail z w hxz hedge ih =>
    have hz : (targets z).isSome := by
      obtain ⟨ts, hts, -⟩ := hedge
      rw [hts]
      rfl
    exact h.closed z (ih hz) w hedge hy

variable {n : α}

/-- A node whose targets are all visited, and which is not, is on no cycle. -/
theorem Settled.not_cycle (h : Settled targets m) {ts : List α}
    (hts : targets n = some ts) (hn : n ∉ m.visited)
    (hall : ∀ y ∈ ts, (targets y).isSome → y ∈ m.visited) :
    ¬Relation.TransGen (Edge targets) n n := by
  intro hcycle
  have hnode : (targets n).isSome := isSome_of_reach hcycle
  obtain ⟨y, ⟨ts', hts', hy⟩, hreach⟩ := Relation.TransGen.head'_iff.mp hcycle
  obtain rfl := Option.some.inj (hts.symm.trans hts')
  by_cases hsome : (targets y).isSome = true
  · exact hn (h.reach (hall y hy hsome) hreach hnode)
  · -- what is no node leads nowhere, so it would be the node itself
    rcases Relation.ReflTransGen.cases_head hreach with heq | ⟨z, ⟨ts', hts', -⟩, -⟩
    · rw [heq] at hsome
      exact hsome hnode
    · rw [hts'] at hsome
      exact hsome rfl

/-! ## What a visit does -/

variable [DecidableEq α]

/-- The cases of a visit. -/
theorem visit_cases (targets : α → Option (List α)) (fuel : ℕ) (n : α) (m : Marks α) :
    (targets n = none ∧ visit targets (fuel + 1) n m = .done m) ∨
    ∃ ts, targets n = some ts ∧
      ((n ∈ m.in_visit ∧ visit targets (fuel + 1) n m = .loop) ∨
      (n ∉ m.in_visit ∧ n ∈ m.visited ∧ visit targets (fuel + 1) n m = .done m) ∨
      (n ∉ m.in_visit ∧ n ∉ m.visited ∧ visit targets (fuel + 1) n m =
        match visitAll (visit targets fuel) ts { m with in_visit := insert n m.in_visit } with
        | .done m => .done ⟨m.in_visit.erase n, insert n m.visited⟩
        | o => o)) := by
  rw [visit]
  cases targets n with
  | none => exact .inl ⟨rfl, rfl⟩
  | some ts =>
    refine .inr ⟨ts, rfl, ?_⟩
    by_cases hin : n ∈ m.in_visit
    · exact .inl ⟨hin, if_pos hin⟩
    · by_cases hvis : n ∈ m.visited
      · exact .inr (.inl ⟨hin, hvis, by simp only [hin, hvis, if_true, if_false]⟩)
      · exact .inr (.inr ⟨hin, hvis, by simp only [hin, hvis, if_false]⟩)

theorem visit_in_visit (fuel : ℕ)
    (h : visit targets fuel n m = .done m') : m'.in_visit = m.in_visit := by
  induction fuel generalizing n m m' with
  | zero => cases h
  | succ fuel ih =>
    rcases visit_cases targets fuel n m with ⟨-, heq⟩ | ⟨ts, -, ⟨-, heq⟩ | ⟨-, -, heq⟩ | ⟨hin, -, heq⟩⟩
    · rw [heq] at h
      rw [Outcome.done.inj h]
    · rw [heq] at h
      cases h
    · rw [heq] at h
      rw [Outcome.done.inj h]
    · rw [heq] at h
      cases hall : visitAll (visit targets fuel) ts { m with in_visit := insert n m.in_visit } with
      | done m₁ =>
        rw [hall] at h
        obtain ⟨hsame, -⟩ := @visitAll_done _ _ (fun m m' => m'.in_visit = m.in_visit) (fun _ => rfl)
          (fun _ _ _ h h' => h'.trans h) (fun _ _ => True) (fun _ _ _ _ _ => trivial)
          (fun _ _ _ h => ⟨ih h, trivial⟩) _ _ _ hall
        rw [← Outcome.done.inj h]
        show m₁.in_visit.erase n = m.in_visit
        rw [hsame]
        exact erase_insert hin
      | loop | exhausted =>
        rw [hall] at h
        cases h

/-! ## A loop is a cycle -/

/-- A visit that ends with a loop comes to a node of a cycle. -/
theorem cycle_of_loop (fuel : ℕ) (h : visit targets fuel n m = .loop)
    (hm : ∀ x ∈ m.in_visit, Relation.TransGen (Edge targets) x n) :
    ∃ x, Relation.ReflTransGen (Edge targets) n x ∧ Relation.TransGen (Edge targets) x x := by
  induction fuel generalizing n m with
  | zero => cases h
  | succ fuel ih =>
    rcases visit_cases targets fuel n m with
      ⟨-, heq⟩ | ⟨ts, hts, ⟨hin, heq⟩ | ⟨-, -, heq⟩ | ⟨-, -, heq⟩⟩
    · rw [heq] at h
      cases h
    · exact ⟨n, .refl, hm n hin⟩
    · rw [heq] at h
      cases h
    · rw [heq] at h
      cases hall : visitAll (visit targets fuel) ts { m with in_visit := insert n m.in_visit } with
      | done m₁ | exhausted =>
        rw [hall] at h
        cases h
      | loop =>
        obtain ⟨y, hy, m₁, hm₁, hloop⟩ := visitAll_of_not_done (o := .loop) (fun _ => nofun)
          (fun _ _ _ h => visit_in_visit fuel h) hall
        have hedge : Edge targets n y := ⟨ts, hts, hy⟩
        obtain ⟨x, hx, hcycle⟩ := ih hloop fun z hz => by
          rw [hm₁] at hz
          rcases mem_insert.mp hz with rfl | hz
          · exact .single hedge
          · exact (hm z hz).tail hedge
        exact ⟨x, .head hedge hx, hcycle⟩

/-! ## Without a loop there is no cycle -/

theorem visit_done (fuel : ℕ) (h : visit targets fuel n m = .done m') :
    Grown targets m m' ∧ ((targets n).isSome → n ∈ m'.visited) := by
  induction fuel generalizing n m m' with
  | zero => cases h
  | succ fuel ih =>
    have hsame := visit_in_visit _ h
    rcases visit_cases targets fuel n m with
      ⟨hnone, heq⟩ | ⟨ts, hts, ⟨-, heq⟩ | ⟨-, hvis, heq⟩ | ⟨hin, hvis, heq⟩⟩
    · rw [heq] at h
      obtain rfl := Outcome.done.inj h
      rw [hnone]
      exact ⟨Grown.refl m, nofun⟩
    · rw [heq] at h
      cases h
    · rw [heq] at h
      obtain rfl := Outcome.done.inj h
      exact ⟨Grown.refl m, fun _ => hvis⟩
    · rw [heq] at h
      cases hall : visitAll (visit targets fuel) ts { m with in_visit := insert n m.in_visit } with
      | done m₁ =>
        rw [hall] at h
        obtain rfl := Outcome.done.inj h
        obtain ⟨hgrown, hreached⟩ := @visitAll_done _ _ (Grown targets) Grown.refl
          (fun _ _ _ h h' => h.trans h') (fun x m => (targets x).isSome → x ∈ m.visited)
          (fun _ _ _ h hx hsome => h.visited (hx hsome)) (fun _ _ _ h => ih h) _ _ _ hall
        refine ⟨⟨hsame, fun x hx => mem_insert_of_mem (hgrown.visited hx), fun hs => ?_⟩,
          fun _ => mem_insert_self n _⟩
        have hs₁ : Settled targets m₁ := by
          refine hgrown.settled ⟨fun x hx hx' => ?_, hs.closed, hs.acyclic⟩
          rcases mem_insert.mp hx with rfl | hx
          · exact hvis hx'
          · exact hs.disjoint x hx hx'
        have hn : n ∉ m₁.visited := by
          refine hs₁.disjoint n ?_
          rw [hgrown.in_visit]
          exact mem_insert_self n _
        refine ⟨fun x hx hx' => ?_, fun x hx y hedge hy => ?_, fun x hx => ?_⟩
        · obtain ⟨hne, hx⟩ := mem_erase.mp hx
          rcases mem_insert.mp hx' with rfl | hx'
          · exact hne rfl
          · exact hs₁.disjoint x hx hx'
        · rcases mem_insert.mp hx with rfl | hx
          · obtain ⟨ts', hts', hyts⟩ := hedge
            obtain rfl := Option.some.inj (hts.symm.trans hts')
            exact mem_insert_of_mem (hreached y hyts hy)
          · exact mem_insert_of_mem (hs₁.closed x hx y hedge hy)
        · rcases mem_insert.mp hx with rfl | hx
          · exact hs₁.not_cycle hts hn hreached
          · exact hs₁.acyclic x hx
      | loop | exhausted =>
        rw [hall] at h
        cases h

/-! ## A visit ends -/

variable {nodes : Finset α}

theorem visit_ne_exhausted (hnodes : ∀ x, (targets x).isSome → x ∈ nodes)
    (fuel : ℕ) (hfuel : (nodes \ m.in_visit).card < fuel) :
    visit targets fuel n m ≠ .exhausted := by
  induction fuel generalizing n m with
  | zero => exact absurd hfuel (Nat.not_lt_zero _)
  | succ fuel ih =>
    rcases visit_cases targets fuel n m with
      ⟨-, heq⟩ | ⟨ts, hts, ⟨-, heq⟩ | ⟨-, -, heq⟩ | ⟨hin, -, heq⟩⟩
    · rw [heq]
      exact nofun
    · rw [heq]
      exact nofun
    · rw [heq]
      exact nofun
    · rw [heq]
      cases hall : visitAll (visit targets fuel) ts { m with in_visit := insert n m.in_visit } with
      | done m₁ => exact nofun
      | loop => exact nofun
      | exhausted =>
        obtain ⟨y, -, m₁, hm₁, hex⟩ := visitAll_of_not_done (o := .exhausted) (fun _ => nofun)
          (fun _ _ _ h => visit_in_visit fuel h) hall
        refine absurd hex (ih ?_)
        -- one more node is being visited
        have hn : n ∈ nodes \ m.in_visit :=
          mem_sdiff.mpr ⟨hnodes n (by rw [hts]; rfl), hin⟩
        have hcard := card_erase_lt_of_mem hn
        rw [hm₁, sdiff_insert]
        omega

/-! ## The search -/

/-- **The search finds a cycle if and only if there is one**, and it always ends. -/
theorem search_spec (hnodes : ∀ x, (targets x).isSome → x ∈ nodes) {fuel : ℕ}
    (hfuel : nodes.card < fuel) {order : List α} (horder : ∀ x, (targets x).isSome → x ∈ order) :
    search targets fuel order ≠ .exhausted ∧
      (search targets fuel order = .loop ↔ ∃ x, Relation.TransGen (Edge targets) x x) := by
  have hsame : ∀ x m m', (if x ∈ m.visited then .done m else visit targets fuel x m) = .done m' →
      m'.in_visit = m.in_visit := by
    intro x m m' h
    split at h
    · rw [Outcome.done.inj h]
    · exact visit_in_visit fuel h
  have hstart : ∀ m : Marks α, m.in_visit = (∅ : Finset α) →
      ∀ x, visit targets fuel x m ≠ .exhausted := by
    intro m hm x
    refine visit_ne_exhausted hnodes fuel ?_
    rw [hm, sdiff_empty]
    exact hfuel
  have hends : search targets fuel order ≠ .exhausted := by
    intro h
    obtain ⟨x, -, m, hm, hex⟩ := visitAll_of_not_done (o := .exhausted) (fun _ => nofun) hsame h
    split at hex
    · cases hex
    · exact hstart m hm x hex
  refine ⟨hends, fun h => ?_, fun ⟨x, hcycle⟩ => ?_⟩
  · obtain ⟨x, -, m, hm, hloop⟩ := visitAll_of_not_done (o := .loop) (fun _ => nofun) hsame h
    split at hloop
    · cases hloop
    · obtain ⟨y, -, hcycle⟩ := cycle_of_loop fuel hloop fun z hz => by
        rw [hm] at hz
        exact absurd hz (notMem_empty z)
      exact ⟨y, hcycle⟩
  · cases hs : search targets fuel order with
    | loop => rfl
    | exhausted => exact absurd hs hends
    | done m =>
      obtain ⟨hgrown, hreached⟩ := @visitAll_done _ _ (Grown targets) Grown.refl
        (fun _ _ _ h h' => h.trans h') (fun x m => (targets x).isSome → x ∈ m.visited)
        (fun _ _ _ h hx hsome => h.visited (hx hsome)) (fun x m m' h => by
          split at h
          · rename_i hvis
            obtain rfl := Outcome.done.inj h
            exact ⟨Grown.refl m, fun _ => hvis⟩
          · exact visit_done fuel h) _ _ _ hs
      have hsettled : Settled targets m := hgrown.settled
        ⟨fun x hx => absurd hx (notMem_empty x), fun x hx => absurd hx (notMem_empty x),
          fun x hx => absurd hx (notMem_empty x)⟩
      have hnode := isSome_of_reach hcycle
      exact absurd hcycle (hsettled.acyclic x (hreached x (horder x hnode) hnode))

/-! ## A visit among others -/

/-- What a search has marked before it comes to a node. -/
theorem search_marks {fuel : ℕ} {order : List α}
    (h : search targets fuel order = .done m) : m.in_visit = ∅ ∧ Settled targets m := by
  obtain ⟨hgrown, -⟩ := @visitAll_done _ _ (Grown targets) Grown.refl
    (fun _ _ _ h h' => h.trans h') (fun _ _ => True) (fun _ _ _ _ _ => trivial)
    (fun x m m' h => by
      split at h
      · obtain rfl := Outcome.done.inj h
        exact ⟨Grown.refl m, trivial⟩
      · exact ⟨(visit_done fuel h).1, trivial⟩) _ _ _ h
  exact ⟨hgrown.in_visit, hgrown.settled ⟨fun x hx => absurd hx (notMem_empty x),
    fun x hx => absurd hx (notMem_empty x), fun x hx => absurd hx (notMem_empty x)⟩⟩

/-- **A visit finds a cycle if and only if its node leads to one**, whatever was visited before. -/
theorem visit_spec (hnodes : ∀ x, (targets x).isSome → x ∈ nodes) {fuel : ℕ}
    (hfuel : nodes.card < fuel) (hin : m.in_visit = ∅) (hm : Settled targets m)
    (n : α) : visit targets fuel n m ≠ .exhausted ∧
      (visit targets fuel n m = .loop ↔
        ∃ x, Relation.ReflTransGen (Edge targets) n x ∧ Relation.TransGen (Edge targets) x x) := by
  have hends : visit targets fuel n m ≠ .exhausted := by
    refine visit_ne_exhausted hnodes fuel ?_
    rw [hin, sdiff_empty]
    exact hfuel
  refine ⟨hends, fun h => ?_, fun ⟨x, hreach, hcycle⟩ => ?_⟩
  · refine cycle_of_loop fuel h fun z hz => ?_
    rw [hin] at hz
    exact absurd hz (notMem_empty z)
  · cases hv : visit targets fuel n m with
    | loop => rfl
    | exhausted => exact absurd hv hends
    | done m' =>
      obtain ⟨hgrown, hreached⟩ := visit_done fuel hv
      have hsettled := hgrown.settled hm
      have hnode : (targets n).isSome := by
        rcases Relation.ReflTransGen.cases_head hreach with heq | ⟨y, ⟨ts, hts, -⟩, -⟩
        · rw [heq]
          exact isSome_of_reach hcycle
        · rw [hts]
          rfl
      -- what the node leads to was visited, and is on no cycle
      have hx := hsettled.reach (hreached hnode) hreach (isSome_of_reach hcycle)
      exact absurd hcycle (hsettled.acyclic x hx)

/-! ## What is explored -/

/-- How a visit ends, with the nodes whose targets it went over. -/
inductive Traced (α : Type) where
  | exhausted
  | loop (explored : List α)
  | done (m : Marks α) (explored : List α)

def Traced.outcome : Traced α → Outcome α
  | .exhausted => .exhausted
  | .loop _ => .loop
  | .done m _ => .done m

/-- `visitAll`, with the nodes that are explored. -/
def tracedAll (f : α → Marks α → List α → Traced α) : List α → Marks α → List α → Traced α
  | [], m, explored => .done m explored
  | x :: xs, m, explored =>
    match f x m explored with
    | .done m explored => tracedAll f xs m explored
    | o => o

/-- `visit`, with the nodes that are explored. -/
def traced (targets : α → Option (List α)) : ℕ → α → Marks α → List α → Traced α
  | 0, _, _, _ => .exhausted
  | fuel + 1, n, m, explored =>
    match targets n with
    | none => .done m explored
    | some ts =>
      if n ∈ m.in_visit then .loop explored
      else if n ∈ m.visited then .done m explored
      else
        match tracedAll (traced targets fuel) ts { m with in_visit := insert n m.in_visit }
          (explored ++ [n]) with
        | .done m explored => .done ⟨m.in_visit.erase n, insert n m.visited⟩ explored
        | o => o

/-- `search`, with the nodes that are explored. -/
def tracedSearch (targets : α → Option (List α)) (fuel : ℕ) (order : List α) : Traced α :=
  tracedAll (fun n m explored =>
    if n ∈ m.visited then .done m explored else traced targets fuel n m explored) order ⟨∅, ∅⟩ []

omit [DecidableEq α] in
theorem tracedAll_outcome {f : α → Marks α → List α → Traced α} {g : α → Marks α → Outcome α}
    (h : ∀ x m explored, (f x m explored).outcome = g x m) (l : List α) (m : Marks α)
    (explored : List α) : (tracedAll f l m explored).outcome = visitAll g l m := by
  induction l generalizing m explored with
  | nil => rfl
  | cons x xs ih =>
    rw [tracedAll, visitAll, ← h x m explored]
    cases f x m explored with
    | exhausted => rfl
    | loop explored' => rfl
    | done m' explored' => exact ih m' explored'

/-- Nothing else is different. -/
theorem traced_outcome (fuel : ℕ) (n : α) (m : Marks α) (explored : List α) :
    (traced targets fuel n m explored).outcome = visit targets fuel n m := by
  induction fuel generalizing n m explored with
  | zero => rfl
  | succ fuel ih =>
    rw [traced, visit]
    cases targets n with
    | none => rfl
    | some ts =>
      dsimp only
      split
      · rfl
      · split
        · rfl
        · rw [← tracedAll_outcome ih ts { m with in_visit := insert n m.in_visit } (explored ++ [n])]
          cases tracedAll (traced targets fuel) ts { m with in_visit := insert n m.in_visit }
            (explored ++ [n]) with
          | exhausted => rfl
          | loop explored' => rfl
          | done m' explored' => rfl

theorem tracedSearch_outcome (fuel : ℕ) (order : List α) :
    (tracedSearch targets fuel order).outcome = search targets fuel order := by
  refine tracedAll_outcome (fun x m explored => ?_) order ⟨∅, ∅⟩ []
  split
  · rfl
  · exact traced_outcome fuel x m explored

/-- A node that was explored has a mark. -/
structure Logged (m : Marks α) (explored : List α) : Prop where
  nodup : explored.Nodup
  marked : ∀ x ∈ explored, x ∈ m.in_visit ∨ x ∈ m.visited

/-- However a visit ends, each node was explored once. -/
def Traced.Once : Traced α → Prop
  | .exhausted => True
  | .loop explored => explored.Nodup
  | .done m explored => Logged m explored

omit [DecidableEq α] in
theorem tracedAll_once {f : α → Marks α → List α → Traced α}
    (hf : ∀ x m explored, Logged m explored → (f x m explored).Once) {l : List α}
    {explored : List α} (h : Logged m explored) : (tracedAll f l m explored).Once := by
  induction l generalizing m explored with
  | nil => exact h
  | cons x xs ih =>
    have hx := hf x m explored h
    rw [tracedAll]
    cases hfx : f x m explored with
    | exhausted => exact trivial
    | loop explored' =>
      rw [hfx] at hx
      exact hx
    | done m' explored' =>
      rw [hfx] at hx
      exact ih hx

theorem traced_once (fuel : ℕ) {explored : List α} (h : Logged m explored) :
    (traced targets fuel n m explored).Once := by
  induction fuel generalizing n m explored with
  | zero => exact trivial
  | succ fuel ih =>
    rw [traced]
    cases targets n with
    | none => exact h
    | some ts =>
      dsimp only
      split
      · exact h.nodup
      · rename_i hin
        split
        · exact h
        · rename_i hvis
          -- the node has no mark yet, so that it was not explored
          have hnew : n ∉ explored := fun hn => (h.marked n hn).elim hin hvis
          have hlogged : Logged { m with in_visit := insert n m.in_visit } (explored ++ [n]) := by
            refine ⟨List.Nodup.append h.nodup (List.nodup_singleton n) ?_, fun x hx => ?_⟩
            · intro x hx hx'
              rw [List.mem_singleton.mp hx'] at hx
              exact hnew hx
            · rcases List.mem_append.mp hx with hx | hx
              · rcases h.marked x hx with hx | hx
                · exact .inl (mem_insert_of_mem hx)
                · exact .inr hx
              · rw [List.mem_singleton.mp hx]
                exact .inl (mem_insert_self n _)
          have hall : (tracedAll (traced targets fuel) ts
              { m with in_visit := insert n m.in_visit } (explored ++ [n])).Once :=
            tracedAll_once (fun _ _ _ h => ih h) hlogged
          cases htraced : tracedAll (traced targets fuel) ts
              { m with in_visit := insert n m.in_visit } (explored ++ [n]) with
          | exhausted => exact trivial
          | loop explored' =>
            rw [htraced] at hall
            exact hall
          | done m' explored' =>
            rw [htraced] at hall
            refine ⟨hall.nodup, fun x hx => ?_⟩
            by_cases hxn : x = n
            · rw [hxn]
              exact .inr (mem_insert_self n _)
            · rcases hall.marked x hx with hx | hx
              · exact .inl (mem_erase.mpr ⟨hxn, hx⟩)
              · exact .inr (mem_insert_of_mem hx)

/-- **A search explores each node at most once**, also when it finds a cycle. -/
theorem tracedSearch_once (fuel : ℕ) (order : List α) :
    (tracedSearch targets fuel order).Once := by
  refine tracedAll_once (fun x m explored h => ?_) ⟨List.nodup_nil, nofun⟩
  split
  · exact h
  · exact traced_once fuel h

end CentreonBroker.DepthFirst
