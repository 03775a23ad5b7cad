import CentreonBroker.Config.Diff

/-!
# What an endpoint is made of

A root endpoint that is no acceptor is made of the chain of its failovers and of the secondary
failovers of each link, all found by name. In a forest the recursion is no deeper than the
list is long, and two lists make the same object if they have the same endpoints for it.
-/

namespace CentreonBroker.Config

open Forest

variable {J : Type} {factory : Endpoint J → Option Bool} {e r : Endpoint J}
  {l l₁ l₂ : List (Endpoint J)}

/-! ## What an endpoint is made of -/

/-- An endpoint, its failover, the failover of its failover, and so on. -/
inductive Chain (l : List (Endpoint J)) : Endpoint J → Endpoint J → Prop
  | self (e : Endpoint J) : Chain l e e
  | failover {e it last : Endpoint J} {front : String} {others : List String}
      (hfailovers : e.failovers = front :: others) (hit : it ∈ l) (hname : it.name = front)
      (hrest : Chain l it last) : Chain l e last

/-- The chain of an endpoint, and the secondary failovers of each of its links. -/
def Part (l : List (Endpoint J)) (r e : Endpoint J) : Prop :=
  ∃ p, Chain l r p ∧ (e = p ∨ e ∈ l ∧ e.name ∈ p.failovers.tail)

/-- What is used to make a root endpoint. The failovers of an acceptor are not. -/
def Within (factory : Endpoint J → Option Bool) (l : List (Endpoint J)) (r e : Endpoint J) : Prop :=
  if factory r = some true then e = r else Part l r e

/-- The configurations of an object. -/
def Object.configs : Object J → List (Endpoint J)
  | .acceptor cfg => [cfg]
  | .failover levels => levels.flatMap fun level => level.cfg :: level.secondary

theorem bind_ok {ε α β : Type} {x : Except ε α} {f : α → Except ε β} {b : β}
    (h : (x >>= f) = .ok b) : ∃ a, x = .ok a ∧ f a = .ok b := by
  cases x with
  | error err => cases h
  | ok a => exact ⟨a, rfl, h⟩

variable {it : Endpoint J}

/-- Who is found by name. -/
theorem find_eq (hnames : (l.map Endpoint.name).Nodup) (hit : it ∈ l) :
    (l.find? fun e => it.name == e.name) = some it := by
  obtain ⟨e, hfind, hname⟩ := find_name (List.mem_map_of_mem hit)
  rw [hfind, eq_of_name hnames (List.mem_of_find?_eq_some hfind) hit hname]

variable {name : String}

theorem find_some
    (h : (l.find? fun e => name == e.name) = some it) : it ∈ l ∧ it.name = name := by
  have hfound := List.find?_some (p := fun e : Endpoint J => name == e.name) h
  exact ⟨List.mem_of_find?_eq_some h, (beq_iff_eq.mp hfound).symm⟩

theorem mem_createSecondary (hnames : (l.map Endpoint.name).Nodup)
    {failovers : List String} {secondary : List (Endpoint J)}
    (h : createSecondary factory l name failovers = .ok secondary) :
    e ∈ secondary ↔ e ∈ l ∧ e.name ∈ failovers := by
  induction failovers generalizing secondary with
  | nil =>
    cases h
    simp
  | cons f fs ih =>
    rw [createSecondary] at h
    split at h
    · cases h
    · rename_i it hfind
      obtain ⟨-, -, h⟩ := bind_ok h
      obtain ⟨others, hothers, h⟩ := bind_ok h
      cases h
      obtain ⟨hit, rfl⟩ := find_some hfind
      rw [List.mem_cons, List.mem_cons, ih hothers, and_or_left]
      refine or_congr_left ⟨?_, fun ⟨he, hname⟩ => eq_of_name hnames he hit hname⟩
      rintro rfl
      exact ⟨hit, rfl⟩

variable {levels : List (Level J)}

theorem mem_addSecondary {secondary : List (Endpoint J)}
    (hne : levels ≠ []) : e ∈ (Object.failover (addSecondary secondary levels)).configs ↔
      e ∈ secondary ∨ e ∈ (Object.failover levels).configs := by
  cases levels with
  | nil => exact absurd rfl hne
  | cons level levels =>
    simp only [addSecondary, Object.configs, List.flatMap_cons, List.mem_append, List.mem_cons]
    tauto

variable {fuel : ℕ}

theorem levels_head
    (h : createFailover factory l fuel e = .ok levels) : ∃ rest, levels = ⟨e, []⟩ :: rest := by
  cases fuel with
  | zero => cases h
  | succ fuel =>
    rw [createFailover] at h
    split at h
    · cases h
      exact ⟨[], rfl⟩
    · split at h
      · cases h
      · obtain ⟨acceptor, -, h⟩ := bind_ok h
        cases acceptor with
        | true => cases h
        | false =>
          obtain ⟨levels, -, h⟩ := bind_ok h
          obtain ⟨secondary, -, h⟩ := bind_ok h
          cases h
          exact ⟨_, rfl⟩

/-- A link of the chain, and what comes after it. -/
theorem part_iff (hnames : (l.map Endpoint.name).Nodup) {front : String}
    {others : List String} (hfailovers : r.failovers = front :: others) (hit : it ∈ l)
    (hname : it.name = front) :
    Part l r e ↔ e = r ∨ (e ∈ l ∧ e.name ∈ others) ∨ Part l it e := by
  constructor
  · rintro ⟨p, hchain, he⟩
    cases hchain with
    | self =>
      rw [hfailovers, List.tail_cons] at he
      exact he.imp id .inl
    | failover hfailovers' hit' hname' hrest =>
      rw [hfailovers] at hfailovers'
      obtain ⟨rfl, rfl⟩ := List.cons.inj hfailovers'
      rw [eq_of_name hnames hit' hit (hname'.trans hname.symm)] at hrest
      exact .inr (.inr ⟨p, hrest, he⟩)
  · rintro (rfl | hsecondary | ⟨p, hchain, he⟩)
    · exact ⟨e, .self e, .inl rfl⟩
    · exact ⟨r, .self r, .inr (by rwa [hfailovers])⟩
    · exact ⟨p, .failover hfailovers hit hname hchain, he⟩

theorem mem_levels (hnames : (l.map Endpoint.name).Nodup)
    (h : createFailover factory l fuel r = .ok levels) :
    e ∈ (Object.failover levels).configs ↔ Part l r e := by
  induction fuel generalizing r levels with
  | zero => cases h
  | succ fuel ih =>
    rw [createFailover] at h
    split at h
    · rename_i hfailovers
      cases h
      constructor
      · intro he
        obtain rfl := List.mem_singleton.mp he
        exact ⟨e, .self e, .inl rfl⟩
      · rintro ⟨p, hchain, he⟩
        cases hchain with
        | self =>
          rw [hfailovers] at he
          rcases he with rfl | ⟨-, he⟩
          · exact List.mem_singleton_self _
          · cases he
        | failover hfailovers' => rw [hfailovers] at hfailovers'; cases hfailovers'
    · rename_i front others hfailovers
      split at h
      · cases h
      · rename_i it hfind
        obtain ⟨hit, hname⟩ := find_some hfind
        obtain ⟨acceptor, -, h⟩ := bind_ok h
        cases acceptor with
        | true => cases h
        | false =>
          obtain ⟨levels', hlevels, h⟩ := bind_ok h
          obtain ⟨secondary, hsecondary, h⟩ := bind_ok h
          cases h
          obtain ⟨tail, htail⟩ := levels_head hlevels
          have hne : levels' ≠ [] := by rw [htail]; exact List.cons_ne_nil _ _
          rw [part_iff hnames hfailovers hit hname, ← ih hlevels,
            ← mem_createSecondary hnames hsecondary, ← mem_addSecondary hne]
          show e ∈ r :: [] ++ (addSecondary secondary levels').flatMap _ ↔ _
          rw [List.singleton_append, List.mem_cons]
          rfl

/-- What an object is made of. -/
theorem mem_configs (hnames : (l.map Endpoint.name).Nodup) {object : Object J}
    (h : createRoot factory l r = .ok object) : e ∈ object.configs ↔ Within factory l r e := by
  unfold createRoot at h
  obtain ⟨acceptor, hacceptor, h⟩ := bind_ok h
  unfold createEndpoint at hacceptor
  split at hacceptor
  · cases hacceptor
  · rename_i hfactory
    cases hacceptor
    unfold Within
    rw [hfactory]
    cases acceptor with
    | true =>
      cases h
      rw [if_pos rfl]
      exact List.mem_singleton
    | false =>
      obtain ⟨levels, hlevels, h⟩ := bind_ok h
      cases h
      rw [if_neg (by simp)]
      exact mem_levels hnames hlevels

theorem within_self (factory : Endpoint J → Option Bool) (l : List (Endpoint J)) (r : Endpoint J) :
    Within factory l r r := by
  unfold Within
  split
  · rfl
  · exact ⟨r, .self r, .inl rfl⟩

theorem Chain.mem (h : Chain l r e) (hr : r ∈ l) : e ∈ l := by
  induction h with
  | self => exact hr
  | failover _ hit _ _ ih => exact ih hit

/-- One more link. -/
theorem Chain.trans_failover (h : Chain l r e) {front : String}
    {others : List String} (hfailovers : e.failovers = front :: others) (hit : it ∈ l)
    (hname : it.name = front) : Chain l r it := by
  induction h with
  | self => exact .failover hfailovers hit hname (.self it)
  | failover hfailovers' hit' hname' _ ih => exact .failover hfailovers' hit' hname' (ih hfailovers)

theorem Within.mem (h : Within factory l r e) (hr : r ∈ l) : e ∈ l := by
  unfold Within at h
  split at h
  · rwa [h]
  · obtain ⟨p, hchain, rfl | ⟨he, -⟩⟩ := h
    · exact hchain.mem hr
    · exact he

/-! ## The same object from two lists -/

/-- The same endpoint is found in both lists. -/
theorem createSecondary_congr {failovers : List String}
    (hfind : ∀ f ∈ failovers,
      (l₁.find? fun e => f == e.name) = l₂.find? fun e => f == e.name) :
    createSecondary factory l₁ name failovers = createSecondary factory l₂ name failovers := by
  induction failovers with
  | nil => rfl
  | cons f fs ih =>
    rw [createSecondary, createSecondary, hfind f List.mem_cons_self,
      ih fun g hg => hfind g (List.mem_cons_of_mem f hg)]

/-- If a set has, with an endpoint, the first failover that `l₁` finds, and both lists find the
same failovers for its members, then they make the same objects. -/
theorem createFailover_congr {P : Endpoint J → Prop}
    (hfind : ∀ e, P e → ∀ f ∈ e.failovers,
      (l₁.find? fun e => f == e.name) = l₂.find? fun e => f == e.name)
    (hnext : ∀ e, P e → ∀ front others it, e.failovers = front :: others →
      (l₁.find? fun e => front == e.name) = some it → P it) (fuel : ℕ) (he : P e) :
    createFailover factory l₁ fuel e = createFailover factory l₂ fuel e := by
  induction fuel generalizing e with
  | zero => rfl
  | succ fuel ih =>
    rw [createFailover, createFailover]
    cases hfailovers : e.failovers with
    | nil => rfl
    | cons front others =>
      have hsame := hfind e he
      rw [hfailovers] at hsame
      dsimp only
      rw [← hsame front List.mem_cons_self]
      cases hit : l₁.find? fun e => front == e.name with
      | none => rfl
      | some it =>
        dsimp only
        rw [ih (hnext e he front others it hfailovers hit),
          createSecondary_congr fun f hf => hsame f (List.mem_cons_of_mem front hf)]

/-- The recursion is no deeper than the rank. -/
theorem createFailover_succ (h : IsForest Endpoint.name Endpoint.failovers l)
    (he : e ∈ l) (hrank : IsForest.rank Endpoint.name Endpoint.failovers l e.name < fuel) :
    createFailover factory l (fuel + 1) e = createFailover factory l fuel e := by
  induction fuel generalizing e with
  | zero => exact absurd hrank (Nat.not_lt_zero _)
  | succ fuel ih =>
    rw [createFailover, createFailover]
    cases hfailovers : e.failovers with
    | nil => rfl
    | cons front others =>
      dsimp only
      cases hit : l.find? fun e => front == e.name with
      | none => rfl
      | some it =>
        dsimp only
        obtain ⟨hmem, hname⟩ := find_some hit
        have hlt := h.rank_lt (b := e.name) (c := it.name)
          ⟨e, he, rfl, by rw [hfailovers, hname]; exact List.mem_cons_self⟩
        rw [ih hmem (by omega)]

theorem createFailover_fuel (h : IsForest Endpoint.name Endpoint.failovers l) (he : e ∈ l)
    (hfuel : l.length < fuel) :
    createFailover factory l fuel e = createFailover factory l (l.length + 1) e := by
  induction fuel, hfuel using Nat.le_induction with
  | base => rfl
  | succ fuel hle ih =>
    rw [createFailover_succ h he (Nat.lt_of_le_of_lt (IsForest.rank_le _) hle)]
    exact ih

/-- Two forests make the same object, if they would at any depth. -/
theorem createRoot_congr (h₁ : IsForest Endpoint.name Endpoint.failovers l₁)
    (h₂ : IsForest Endpoint.name Endpoint.failovers l₂) (he₁ : r ∈ l₁) (he₂ : r ∈ l₂)
    (h : ∀ fuel, createFailover factory l₁ fuel r = createFailover factory l₂ fuel r) :
    createRoot factory l₁ r = createRoot factory l₂ r := by
  have hfuel : createFailover factory l₁ (l₁.length + 1) r =
      createFailover factory l₂ (l₂.length + 1) r := by
    have hlt₁ : l₁.length < l₁.length + l₂.length + 1 := by omega
    have hlt₂ : l₂.length < l₁.length + l₂.length + 1 := by omega
    rw [← createFailover_fuel h₁ he₁ hlt₁, ← createFailover_fuel h₂ he₂ hlt₂]
    exact h _
  unfold createRoot
  rw [hfuel]

/-- A closed part of a forest makes the objects of the forest. -/
theorem createRoot_part (h : IsForest Endpoint.name Endpoint.failovers l)
    {kept : List (Endpoint J)} (hperm : l.Perm (l₁ ++ kept)) (hclosed : Closed l₁) (hr : r ∈ l₁) :
    createRoot factory l₁ r = createRoot factory l r := by
  have hforest := (h.perm hperm).left hclosed
  have hsub : ∀ e ∈ l₁, e ∈ l := fun e he => hperm.symm.subset (List.mem_append_left kept he)
  refine createRoot_congr hforest h hr (hsub r hr) fun fuel =>
    createFailover_congr (P := (· ∈ l₁)) (fun e he f hf => ?_)
      (fun e he front others it _ hit => (find_some hit).1) fuel hr
  obtain ⟨it, hit, hname⟩ := List.mem_map.mp (hclosed e he f hf)
  rw [← hname, find_eq hforest.names hit, find_eq h.names (hsub it hit)]

/-- A list that has all that an endpoint was made of makes the same object. -/
theorem createRoot_unchanged (h₁ : IsForest Endpoint.name Endpoint.failovers l₁)
    (h₂ : IsForest Endpoint.name Endpoint.failovers l₂) (hr : r ∈ l₁)
    (hwithin : ∀ e, Within factory l₁ r e → e ∈ l₂) :
    createRoot factory l₁ r = createRoot factory l₂ r := by
  have hr₂ : r ∈ l₂ := hwithin r (within_self factory l₁ r)
  by_cases hacceptor : factory r = some true
  · unfold createRoot createEndpoint
    rw [hacceptor]
    rfl
  · have hpart : ∀ e, Part l₁ r e → e ∈ l₂ := fun e he => hwithin e (by
      unfold Within
      rwa [if_neg hacceptor])
    -- the links of the chain are in both lists, with all their failovers
    refine createRoot_congr h₁ h₂ hr hr₂ fun fuel =>
      createFailover_congr (P := fun e => Chain l₁ r e ∧ e ∈ l₁) (fun e he f hf => ?_)
        (fun e he front others it hfailovers hit => ?_) fuel ⟨.self r, hr⟩
    · obtain ⟨it, hit, hname⟩ := List.mem_map.mp (h₁.closed e he.2 f hf)
      have hit₂ : it ∈ l₂ := by
        cases hfailovers : e.failovers with
        | nil => rw [hfailovers] at hf; cases hf
        | cons front others =>
          rw [hfailovers] at hf
          rcases List.mem_cons.mp hf with rfl | hf
          · exact hpart it ⟨it, he.1.trans_failover hfailovers hit hname, .inl rfl⟩
          · exact hpart it ⟨e, he.1, .inr ⟨hit, by rw [hfailovers, hname]; exact hf⟩⟩
      rw [← hname, find_eq h₁.names hit, find_eq h₂.names hit₂]
    · obtain ⟨hmem, hname⟩ := find_some hit
      exact ⟨he.1.trans_failover hfailovers hmem hname, hmem⟩

end CentreonBroker.Config
