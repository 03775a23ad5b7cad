import CentreonBroker.Config.Applier
import CentreonBroker.Lib.Forest

/-!
# The difference of a forest

A list of endpoints is a forest when each failover name designates one endpoint and is used
once, without a cycle. Then `_diff_endpoints` does not throw, and it takes the list apart tree
by tree: what is to be created is closed, its roots are the roots of the list whose
configuration does not run, and the keys that are to be deleted are those that no root has.
-/

namespace CentreonBroker.Config

open Forest

variable {J : Type} {e : Endpoint J} {l rest : List (Endpoint J)}

/-- A forest, in which nobody has the empty name as a failover. -/
structure Wf (l : List (Endpoint J)) : Prop where
  forest : IsForest Endpoint.name Endpoint.failovers l
  /-- The applier of the state refuses an endpoint with no name. -/
  named : "" ∉ l.flatMap Endpoint.failovers

/-- The failovers of the endpoints of a list are in the list. -/
abbrev Closed (l : List (Endpoint J)) : Prop := Forest.Closed Endpoint.name Endpoint.failovers l

/-- No endpoint of the list has this one as a failover. -/
abbrev Root (l : List (Endpoint J)) (e : Endpoint J) : Prop :=
  IsRoot Endpoint.name Endpoint.failovers l e

theorem any_failovers (l : List (Endpoint J)) (name : String) :
    (l.any fun parent => parent.failovers.contains name) = true ↔
      name ∈ l.flatMap Endpoint.failovers := by
  rw [List.any_eq_true, List.mem_flatMap]
  simp only [List.contains_iff_mem]

/-- The code's roots are those that nobody has as a failover. -/
theorem isRoot_iff (hnamed : "" ∉ l.flatMap Endpoint.failovers) : isRoot l e = true ↔ Root l e := by
  unfold isRoot Root IsRoot
  rw [Bool.or_eq_true, beq_iff_eq, Bool.not_eq_true', ← Bool.not_eq_true, any_failovers]
  constructor
  · rintro (hempty | hroot)
    · rwa [hempty]
    · exact hroot
  · exact .inr

/-! ## One tree -/

/-- What is looked for is found, and taken out. -/
theorem perm_of_find {p : Endpoint J → Bool} (h : l.find? p = some e) :
    l.Perm (e :: l.eraseP p) := by
  induction l with
  | nil => cases h
  | cons a l ih =>
    rw [List.find?_cons] at h
    cases hp : p a with
    | true =>
      rw [hp] at h
      cases h
      rw [List.eraseP_cons_of_pos hp]
    | false =>
      rw [hp] at h
      rw [List.eraseP_cons_of_neg (by simp [hp])]
      exact (List.Perm.cons a (ih h)).trans (List.Perm.swap e a _)

/-- The endpoint of a name. -/
theorem find_name {name : String} (h : name ∈ l.map Endpoint.name) :
    ∃ e, l.find? (fun e => name == e.name) = some e ∧ e.name = name := by
  obtain ⟨a, ha, hname⟩ := List.mem_map.mp h
  cases hfind : l.find? fun e => name == e.name with
  | none =>
    have hnone := List.find?_eq_none.mp hfind a ha
    simp [hname] at hnone
  | some e =>
    have hfound := List.find?_some (p := fun e : Endpoint J => name == e.name) hfind
    exact ⟨e, rfl, (beq_iff_eq.mp hfound).symm⟩

theorem takeFailovers_spec (owner : String) {failovers : List String}
    (hmem : ∀ f ∈ failovers, f ∈ rest.map Endpoint.name) (hnodup : failovers.Nodup)
    (hnames : (rest.map Endpoint.name).Nodup) :
    ∃ found rest', takeFailovers owner failovers rest = .ok (found, rest') ∧
      rest.Perm (found ++ rest') ∧ found.map Endpoint.name = failovers := by
  induction failovers generalizing rest with
  | nil => exact ⟨[], rest, rfl, List.Perm.refl _, rfl⟩
  | cons f fs ih =>
    obtain ⟨hnotin, hnodup⟩ := List.nodup_cons.mp hnodup
    obtain ⟨e, hfind, hname⟩ := find_name (hmem f List.mem_cons_self)
    have hperm := perm_of_find hfind
    have hnames' := ((hperm.map Endpoint.name).nodup_iff.mp hnames)
    obtain ⟨found, rest', htake, hperm', hfound⟩ := ih (fun g hg => by
        have hin := (hperm.map Endpoint.name).subset (hmem g (List.mem_cons_of_mem f hg))
        rcases List.mem_cons.mp hin with heq | hin
        · rw [heq, hname] at hg
          exact absurd hg hnotin
        · exact hin)
      hnodup (List.nodup_cons.mp hnames').2
    refine ⟨e :: found, rest', ?_, hperm.trans (hperm'.cons e), ?_⟩
    · rw [takeFailovers, hfind]
      show (takeFailovers owner fs _ >>= _) = _
      rw [htake]
      rfl
    · rw [List.map_cons, hname, hfound]

/-- The entries that were met, and the rest of the list. -/
structure Open (entries rest : List (Endpoint J)) : Prop where
  names : ((entries ++ rest).map Endpoint.name).Nodup
  single : ((entries ++ rest).flatMap Endpoint.failovers).Nodup
  /-- Nobody's failovers were taken yet. -/
  below : ∀ e ∈ entries ++ rest, ∀ f ∈ e.failovers, f ∈ rest.map Endpoint.name

/-- What `subentries` makes of them. -/
structure Tree (todo rest entries rest' : List (Endpoint J)) : Prop where
  perm : (todo ++ rest).Perm (entries ++ rest')
  closed : Closed entries
  rest : Closed rest'
  first : ∀ e ∈ todo, e ∈ entries
  others : ∀ e ∈ entries, e ∈ todo ∨ e.name ∈ entries.flatMap Endpoint.failovers

theorem closed_nil : Closed ([] : List (Endpoint J)) := fun _ he => absurd he List.not_mem_nil

/-- Nobody is to be done. -/
theorem Tree.nil (h : Closed rest) : Tree [] rest [] rest where
  perm := List.Perm.refl _
  closed := closed_nil
  rest := h
  first _ he := absurd he List.not_mem_nil
  others _ he := absurd he List.not_mem_nil

/-- The failovers of the first entry are met. -/
theorem Open.next {entries found rest' : List (Endpoint J)} (h : Open (e :: entries) rest)
    (hperm : rest.Perm (found ++ rest')) (hfound : found.map Endpoint.name = e.failovers) :
    Open (entries ++ found) rest' := by
  have hall : (e :: entries ++ rest).Perm (e :: (entries ++ found ++ rest')) := by
    rw [List.append_assoc, List.cons_append]
    exact (hperm.append_left entries).cons e
  have hnames := (hall.map Endpoint.name).nodup_iff.mp h.names
  have hsingle := (hall.flatMap_right Endpoint.failovers).nodup_iff.mp h.single
  rw [List.flatMap_cons] at hsingle
  refine ⟨(List.nodup_cons.mp hnames).2, hsingle.of_append_right, fun a ha f hf => ?_⟩
  have hin := (hperm.map Endpoint.name).subset
    (h.below a (hall.symm.subset (List.mem_cons_of_mem e ha)) f hf)
  rw [List.map_append, List.mem_append, hfound] at hin
  rcases hin with hin | hin
  · -- a failover of the entry is nobody else's
    have hdisjoint := List.disjoint_of_nodup_append hsingle
    exact absurd (List.mem_flatMap.mpr ⟨a, ha, hf⟩) (hdisjoint hin)
  · exact hin

theorem subentries_spec {fuel : ℕ} {entries : List (Endpoint J)} (h : Open entries rest)
    (hfuel : entries.length + rest.length ≤ fuel) :
    ∃ all rest', subentries fuel entries rest = .ok (all, rest') ∧ Tree entries rest all rest' := by
  induction fuel generalizing entries rest with
  | zero =>
    obtain rfl : entries = [] := List.length_eq_zero_iff.mp (by omega)
    exact ⟨[], rest, rfl, .nil fun e he f hf => h.below e he f hf⟩
  | succ fuel ih =>
    cases entries with
    | nil =>
      exact ⟨[], rest, rfl, .nil fun e he f hf => h.below e he f hf⟩
    | cons e entries =>
      have hnodup : e.failovers.Nodup := by
        have hsingle := h.single
        rw [List.cons_append, List.flatMap_cons] at hsingle
        exact hsingle.of_append_left
      have hnames : (rest.map Endpoint.name).Nodup := by
        have hnames := h.names
        rw [List.map_append] at hnames
        exact hnames.of_append_right
      obtain ⟨found, rest₁, htake, hperm, hfound⟩ :=
        takeFailovers_spec e.name (h.below e List.mem_cons_self) hnodup hnames
      have hlength : rest.length = found.length + rest₁.length := by
        rw [hperm.length_eq, List.length_append]
      obtain ⟨all, rest₂, hsub, htree⟩ := ih (h.next hperm hfound) (by
        rw [List.length_cons] at hfuel
        rw [List.length_append]
        omega)
      refine ⟨e :: all, rest₂, ?_, ⟨?_, ?_, htree.rest, ?_, ?_⟩⟩
      · rw [subentries, htake]
        show (subentries fuel (entries ++ found) rest₁ >>= _) = _
        rw [hsub]
        rfl
      · rw [List.cons_append, List.cons_append]
        refine List.Perm.cons e (((hperm.append_left entries).trans ?_).trans htree.perm)
        rw [List.append_assoc]
      · intro a ha f hf
        rcases List.mem_cons.mp ha with rfl | ha
        · rw [← hfound] at hf
          obtain ⟨b, hb, rfl⟩ := List.mem_map.mp hf
          exact List.mem_map_of_mem
            (List.mem_cons_of_mem a (htree.first b (List.mem_append_right entries hb)))
        · rw [List.map_cons]
          exact List.mem_cons_of_mem _ (htree.closed a ha f hf)
      · intro a ha
        rcases List.mem_cons.mp ha with rfl | ha
        · exact List.mem_cons_self
        · exact List.mem_cons_of_mem e (htree.first a (List.mem_append_left found ha))
      · intro a ha
        rw [List.flatMap_cons]
        rcases List.mem_cons.mp ha with rfl | ha
        · exact .inl List.mem_cons_self
        · rcases htree.others a ha with hmem | hused
          · rcases List.mem_append.mp hmem with hmem | hmem
            · exact .inl (List.mem_cons_of_mem e hmem)
            · refine .inr (List.mem_append_left _ ?_)
              rw [← hfound]
              exact List.mem_map_of_mem hmem
          · exact .inr (List.mem_append_right _ hused)

/-! ## All trees -/

theorem Root.perm {l₁ l₂ : List (Endpoint J)} (hperm : l₁.Perm l₂) (h : Root l₁ e) : Root l₂ e :=
  fun hmem => h ((hperm.flatMap_right Endpoint.failovers).symm.subset hmem)

theorem Closed.append {l₁ l₂ : List (Endpoint J)} (h₁ : Closed l₁) (h₂ : Closed l₂) :
    Closed (l₁ ++ l₂) := by
  intro a ha f hf
  rw [List.map_append, List.mem_append]
  rcases List.mem_append.mp ha with ha | ha
  · exact .inl (h₁ a ha f hf)
  · exact .inr (h₂ a ha f hf)

/-- The tree of a root, and the rest of the forest. -/
theorem Wf.tree {root : Endpoint J} (h : Wf l) (hperm : l.Perm (root :: rest)) (hroot : Root l root) :
    ∃ entries rest', subentries (rest.length + 1) [root] rest = .ok (entries, rest') ∧
      l.Perm (entries ++ rest') ∧ Closed entries ∧ Wf rest' ∧ root ∈ entries ∧
      (∀ e ∈ l, Root l e ↔ e = root ∨ e ∈ rest' ∧ Root rest' e) := by
  have hopen : Open [root] rest := by
    refine ⟨(hperm.map Endpoint.name).nodup_iff.mp h.forest.names,
      (hperm.flatMap_right Endpoint.failovers).nodup_iff.mp h.forest.single, fun e he f hf => ?_⟩
    have he := hperm.symm.subset he
    have hin := (hperm.map Endpoint.name).subset (h.forest.closed e he f hf)
    rcases List.mem_cons.mp hin with heq | hin
    · exact absurd (List.mem_flatMap.mpr ⟨e, he, heq ▸ hf⟩) hroot
    · exact hin
  obtain ⟨entries, rest', hsub, htree⟩ := subentries_spec hopen (Nat.le_of_eq (Nat.add_comm 1 _))
  have hperm' : l.Perm (entries ++ rest') := hperm.trans htree.perm
  have hforest := h.forest.perm hperm'
  refine ⟨entries, rest', hsub, hperm', htree.closed, ⟨hforest.right htree.rest, fun hmem => ?_⟩,
    htree.first root List.mem_cons_self, fun e he => ⟨fun hr => ?_, ?_⟩⟩
  · refine h.named ((hperm'.flatMap_right Endpoint.failovers).symm.subset ?_)
    rw [List.flatMap_append]
    exact List.mem_append_right _ hmem
  · have hr' : Root (entries ++ rest') e := hr.perm hperm'
    unfold Root IsRoot at hr'
    rw [List.flatMap_append, List.mem_append, not_or] at hr'
    rcases List.mem_append.mp (hperm'.subset he) with hin | hin
    · rcases htree.others e hin with hfirst | hused
      · exact .inl (List.mem_singleton.mp hfirst)
      · exact absurd hused hr'.1
    · exact .inr ⟨hin, hr'.2⟩
  · rintro (rfl | ⟨hin, hr⟩)
    · exact hroot
    · have hall := hforest.isRoot_of_append htree.closed hin hr
      exact Root.perm hperm'.symm hall

variable [LinearOrder J] {current : List (Running J)}

/-- What the difference makes of a list: `kept` is what runs already. -/
structure Diffed (current : List (Running J)) (new_ep to_delete to_create to_delete' :
    List (Endpoint J)) : Prop where
  part : ∃ kept, new_ep.Perm (to_create ++ kept) ∧ Closed to_create ∧ Closed kept
  create : ∀ e ∈ new_ep, Root new_ep e → (e ∈ to_create ↔ findKey e current = none)
  delete : ∀ k, k ∈ to_delete' ↔ k ∈ to_delete ∧
    ∀ e ∈ new_ep, Root new_ep e → ∀ r, findKey e current = some r → k.eqv r.key = false

/-- An empty list changes nothing. -/
theorem Diffed.nil (current : List (Running J)) (to_delete : List (Endpoint J)) :
    Diffed current [] to_delete [] to_delete where
  part := ⟨[], List.Perm.refl _, closed_nil, closed_nil⟩
  create _ he := absurd he List.not_mem_nil
  delete _ := ⟨fun hk => ⟨hk, fun _ he => absurd he List.not_mem_nil⟩, And.left⟩

variable (current) in
theorem diffLoop_spec {fuel : ℕ} (h : Wf l) (hfuel : l.length ≤ fuel)
    (created to_delete : List (Endpoint J)) :
    ∃ to_create to_delete', diffLoop current fuel l created to_delete =
        .ok (created ++ to_create, to_delete') ∧
      Diffed current l to_delete to_create to_delete' := by
  induction fuel generalizing l created to_delete with
  | zero =>
    obtain rfl : l = [] := List.length_eq_zero_iff.mp (by omega)
    exact ⟨[], to_delete, by rw [List.append_nil]; rfl, .nil current to_delete⟩
  | succ fuel ih =>
    cases hl : l with
    | nil =>
      exact ⟨[], to_delete, by rw [List.append_nil]; rfl, .nil current to_delete⟩
    | cons x xs =>
      rw [← hl]
      obtain ⟨a, ha, hroot⟩ := h.forest.exists_root (by rw [hl]; exact List.cons_ne_nil x xs)
      obtain ⟨root, hfind⟩ : ∃ root, l.find? (isRoot l) = some root := by
        cases hfind : l.find? (isRoot l) with
        | none => exact absurd ((isRoot_iff h.named).mpr hroot) (List.find?_eq_none.mp hfind a ha)
        | some root => exact ⟨root, rfl⟩
      have hroot' : Root l root := (isRoot_iff h.named).mp (List.find?_some hfind)
      have hmem : root ∈ l := List.mem_of_find?_eq_some hfind
      obtain ⟨entries, rest', hsub, hperm, hclosed, hwf, hin, hroots⟩ :=
        h.tree (perm_of_find hfind) hroot'
      have hlength : rest'.length ≤ fuel := by
        have hpos : 0 < entries.length := List.length_pos_of_mem hin
        have hsum := hperm.length_eq
        rw [List.length_append] at hsum
        omega
      have hnames : ((entries ++ rest').map Endpoint.name).Nodup :=
        (hperm.map Endpoint.name).nodup_iff.mp h.forest.names
      -- nobody is in the tree and in the rest
      have hdisjoint : entries.Disjoint rest' :=
        List.disjoint_of_nodup_append (List.Nodup.of_map _ hnames)
      have hstep : (findKey root current = none → diffLoop current (fuel + 1) l created to_delete =
            diffLoop current fuel rest' (created ++ entries) to_delete) ∧
          ∀ r, findKey root current = some r → diffLoop current (fuel + 1) l created to_delete =
            diffLoop current fuel rest' created (to_delete.filter fun k => !k.eqv r.key) := by
        rw [hl, diffLoop, ← hl, hfind]
        · dsimp only
          rw [hsub]
          exact ⟨fun hkey => by rw [hkey]; rfl, fun r hkey => by rw [hkey]; rfl⟩
        · exact List.cons_ne_nil x xs
      cases hkey : findKey root current with
      | none =>
        obtain ⟨tc, td, hloop, hdiff⟩ := ih hwf hlength (created ++ entries) to_delete
        obtain ⟨kept, hkept, hctc, hckept⟩ := hdiff.part
        refine ⟨entries ++ tc, td, by rw [hstep.1 hkey, ← List.append_assoc]; exact hloop,
          ⟨kept, ?_, hclosed.append hctc, hckept⟩, fun e he hr => ?_, fun k => ?_⟩
        · rw [List.append_assoc]
          exact hperm.trans (hkept.append_left entries)
        · rcases (hroots e he).mp hr with rfl | ⟨hrest, hr⟩
          · exact ⟨fun _ => hkey, fun _ => List.mem_append_left tc hin⟩
          · rw [List.mem_append, ← hdiff.create e hrest hr]
            exact ⟨fun hor => hor.resolve_left fun h => hdisjoint h hrest, .inr⟩
        · rw [hdiff.delete k]
          refine and_congr_right fun _ => ⟨fun hall e he hr r hk => ?_, fun hall e he hr => ?_⟩
          · rcases (hroots e he).mp hr with rfl | ⟨hrest, hr⟩
            · rw [hkey] at hk
              cases hk
            · exact hall e hrest hr r hk
          · have he' := hperm.symm.subset (List.mem_append_right entries he)
            exact hall e he' ((hroots e he').mpr (.inr ⟨he, hr⟩))
      | some r =>
        obtain ⟨tc, td, hloop, hdiff⟩ :=
          ih hwf hlength created (to_delete.filter fun k => !k.eqv r.key)
        obtain ⟨kept, hkept, hctc, hckept⟩ := hdiff.part
        have htc : ∀ e ∈ tc, e ∈ rest' := fun e he => hkept.symm.subset (List.mem_append_left kept he)
        refine ⟨tc, td, by rw [hstep.2 r hkey]; exact hloop,
          ⟨entries ++ kept, ?_, hctc, hclosed.append hckept⟩,
          fun e he hr => ?_, fun k => ?_⟩
        · refine (hperm.trans (hkept.append_left entries)).trans ?_
          rw [← List.append_assoc, ← List.append_assoc]
          exact List.perm_append_comm.append_right kept
        · rcases (hroots e he).mp hr with rfl | ⟨hrest, hr⟩
          · rw [hkey]
            exact ⟨fun h => absurd (htc _ h) fun h => hdisjoint hin h, nofun⟩
          · exact hdiff.create e hrest hr
        · rw [hdiff.delete k, List.mem_filter, Bool.not_eq_true', and_assoc]
          refine and_congr_right fun _ => ⟨fun hall e he hr r' hk => ?_, fun hall => ⟨?_, ?_⟩⟩
          · rcases (hroots e he).mp hr with rfl | ⟨hrest, hr⟩
            · rw [hkey] at hk
              cases hk
              exact hall.1
            · exact hall.2 e hrest hr r' hk
          · exact hall root hmem hroot' r hkey
          · intro e he hr
            have he' := hperm.symm.subset (List.mem_append_right entries he)
            exact hall e he' ((hroots e he').mpr (.inr ⟨he, hr⟩))

theorem diffEndpoints_spec (h : Wf l) (current : List (Running J)) :
    ∃ to_create to_delete, diffEndpoints current l = .ok (to_create, to_delete) ∧
      Diffed current l (current.map Running.key) to_create to_delete := by
  obtain ⟨tc, td, hloop, hdiff⟩ :=
    diffLoop_spec current h (Nat.le_refl _) [] (current.map Running.key)
  exact ⟨tc, td, hloop, hdiff⟩

end CentreonBroker.Config
