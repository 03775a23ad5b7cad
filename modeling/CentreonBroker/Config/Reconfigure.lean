import CentreonBroker.Config.Objects

/-!
# A new configuration against a fresh start

The map of the running endpoints only knows the configuration of the roots, while the root
endpoint of a tree is made of what is found below it. So a list is applied over another as if
from scratch exactly when each root that both lists have is made of endpoints that the new
list has unchanged. What runs and did not change is never restarted, and nothing happens when
the difference throws.
-/

namespace CentreonBroker.Config

open Forest Applier

variable {J : Type} [LinearOrder J] {factory : Endpoint J → Option Bool} {e r : Endpoint J}
  {l tree c1 c2 : List (Endpoint J)} {st : Applier J}

/-- The root endpoints of a list run, and nothing else, each made from the list. -/
structure Runs (factory : Endpoint J → Option Bool) (l : List (Endpoint J)) (st : Applier J) :
    Prop where
  root : ∀ x ∈ st.endpoints, x.key ∈ l ∧ Root l x.key
  object : ∀ x ∈ st.endpoints, createRoot factory l x.key = .ok x.object
  all : ∀ e ∈ l, Root l e → ∃ x ∈ st.endpoints, x.key = e
  names : (st.endpoints.map fun x => x.key.name).Nodup

/-! ## The map -/

theorem findKey_none {running : List (Running J)} :
    findKey e running = none ↔ ∀ x ∈ running, e.equiv x.key = false := by
  unfold findKey
  rw [List.find?_eq_none]
  simp

theorem findKey_some {running : List (Running J)} {x : Running J} (h : findKey e running = some x) :
    x ∈ running ∧ e.equiv x.key = true :=
  ⟨List.mem_of_find?_eq_some h, List.find?_some (p := fun r : Running J => e.equiv r.key) h⟩

/-! ## The creations -/

/-- If no creation throws, each root is made. -/
theorem createRoot_of_create {eps : List (Endpoint J)}
    (h : (Applier.create factory l eps st).2 = none) :
    ∀ e ∈ eps, isRoot l e = true → ∃ object, createRoot factory l e = .ok object := by
  induction eps generalizing st with
  | nil => exact nofun
  | cons ep eps ih =>
    intro e he hroot
    rw [Applier.create] at h
    split at h
    · split at h
      · cases h
      · rename_i object hobject
        rcases List.mem_cons.mp he with rfl | he
        · exact ⟨object, hobject⟩
        · exact ih h e he hroot
    · rename_i hnot
      rcases List.mem_cons.mp he with rfl | he
      · exact absurd hroot hnot
      · exact ih h e he hroot

/-- The new objects come after what runs already. -/
theorem create_spec {eps : List (Endpoint J)}
    (hok : ∀ e ∈ eps, isRoot l e = true → ∃ object, createRoot factory l e = .ok object)
    (hfresh : ∀ e ∈ eps, isRoot l e = true → findKey e st.endpoints = none)
    (hnames : (eps.map Endpoint.name).Nodup) :
    ∃ new made, Applier.create factory l eps st = (⟨st.endpoints ++ new, made⟩, none) ∧
      new.map Running.key = eps.filter (isRoot l) ∧
      ∀ x ∈ new, createRoot factory l x.key = .ok x.object := by
  induction eps generalizing st with
  | nil => exact ⟨[], st.made, by rw [List.append_nil]; rfl, rfl, by simp⟩
  | cons ep eps ih =>
    obtain ⟨hnotin, hnames⟩ := List.nodup_cons.mp hnames
    have hok' := fun e he => hok e (List.mem_cons_of_mem ep he)
    have hfresh' := fun e he => hfresh e (List.mem_cons_of_mem ep he)
    rw [Applier.create]
    by_cases hroot : isRoot l ep = true
    · obtain ⟨object, hobject⟩ := hok ep List.mem_cons_self hroot
      have hset : st.set ep object = ⟨st.endpoints ++ [⟨ep, object, st.made⟩], st.made + 1⟩ := by
        unfold Applier.set
        rw [hfresh ep List.mem_cons_self hroot]
        rfl
      rw [if_pos hroot, hobject]
      dsimp only
      rw [hset]
      obtain ⟨new, made, hcreate, hkeys, hobjects⟩ := @ih ⟨st.endpoints ++ [⟨ep, object, st.made⟩],
        st.made + 1⟩ hok' (fun e he hr => by
          refine findKey_none.mpr fun x hx => ?_
          rcases List.mem_append.mp hx with hx | hx
          · exact findKey_none.mp (hfresh' e he hr) x hx
          · obtain rfl := List.mem_singleton.mp hx
            refine Bool.eq_false_iff.mpr fun hequiv => hnotin ?_
            rw [← Endpoint.name_of_equiv hequiv]
            exact List.mem_map_of_mem he) hnames
      refine ⟨⟨ep, object, st.made⟩ :: new, made, ?_, ?_, fun x hx => ?_⟩
      · rw [hcreate, List.append_assoc, List.singleton_append]
      · rw [List.map_cons, List.filter_cons_of_pos hroot, hkeys]
      · rcases List.mem_cons.mp hx with rfl | hx
        · exact hobject
        · exact hobjects x hx
    · rw [if_neg hroot, List.filter_cons_of_neg hroot]
      exact ih hok' hfresh' hnames

/-! ## One application -/

/-- Nothing is stopped or created when the difference throws. -/
theorem apply_of_diff_error {err : Error} (h : diffEndpoints st.endpoints l = .error err) :
    Applier.apply factory l st = (st, some err) := by
  unfold Applier.apply
  rw [h]

/-- The roots of a forest can all be made. -/
def Makes (factory : Endpoint J → Option Bool) (l : List (Endpoint J)) : Prop :=
  ∀ e ∈ l, Root l e → ∃ object, createRoot factory l e = .ok object

/-- The roots of what is to be created are those of the list that do not run. -/
theorem Diffed.root {current : List (Running J)} {to_delete to_create to_delete' : List (Endpoint J)}
    (hwf : Wf l) (h : Diffed current l to_delete to_create to_delete') :
    "" ∉ to_create.flatMap Endpoint.failovers ∧
      ∀ e ∈ to_create, Root to_create e ↔ Root l e := by
  obtain ⟨kept, hperm, hclosed, hkept⟩ := h.part
  have hnamed : "" ∉ (to_create ++ kept).flatMap Endpoint.failovers := fun hmem =>
    hwf.named ((hperm.flatMap_right Endpoint.failovers).symm.subset hmem)
  rw [List.flatMap_append, List.mem_append, not_or] at hnamed
  refine ⟨hnamed.1, fun e he => ⟨fun hroot => ?_, fun hroot hmem => ?_⟩⟩
  · have hswap : l.Perm (kept ++ to_create) := hperm.trans List.perm_append_comm
    exact Root.perm hswap.symm ((hwf.forest.perm hswap).isRoot_of_append hkept he hroot)
  · refine Root.perm hperm hroot ?_
    rw [List.flatMap_append]
    exact List.mem_append_left _ hmem

/-- What an application that does not throw leaves running: what it keeps, and what is new. -/
structure Applied (factory : Endpoint J → Option Bool) (l : List (Endpoint J)) (st st' : Applier J)
    (new : List (Running J)) : Prop where
  endpoints : st'.endpoints =
    st.endpoints.filter (fun x => l.any fun e => isRoot l e && e.equiv x.key) ++ new
  made : ∀ x ∈ new, x.key ∈ l ∧ Root l x.key ∧ findKey x.key st.endpoints = none ∧
    createRoot factory l x.key = .ok x.object
  all : ∀ e ∈ l, Root l e → findKey e st.endpoints = none → ∃ x ∈ new, x.key = e
  names : (new.map fun x => x.key.name).Nodup

/-- The keys that no root has are removed. -/
theorem Diffed.remove {to_create to_delete : List (Endpoint J)} (hwf : Wf l)
    (h : Diffed st.endpoints l (st.endpoints.map Running.key) to_create to_delete) :
    (st.remove to_delete).endpoints =
      st.endpoints.filter fun x => l.any fun e => isRoot l e && e.equiv x.key := by
  refine List.filter_congr fun x hx => ?_
  rw [Bool.eq_iff_iff, Bool.not_eq_true', ← Bool.not_eq_true, List.any_eq_true, List.any_eq_true]
  constructor
  · intro hnot
    by_contra hnone
    refine hnot ⟨x.key, (h.delete x.key).mpr ⟨List.mem_map_of_mem hx, fun e he hroot y hy => ?_⟩,
      Endpoint.equiv_refl _⟩
    obtain ⟨-, hequiv⟩ := findKey_some hy
    refine Bool.eq_false_iff.mpr fun heqv => hnone ⟨e, he, ?_⟩
    rw [Bool.and_eq_true, isRoot_iff hwf.named]
    rw [← Endpoint.equiv_eq_eqv, Endpoint.equiv_comm] at heqv
    exact ⟨hroot, Endpoint.equiv_trans hequiv heqv⟩
  · rintro ⟨e, he, hand⟩ ⟨k, hk, hequiv⟩
    rw [Bool.and_eq_true, isRoot_iff hwf.named] at hand
    obtain ⟨hroot, hex⟩ := hand
    cases hy : findKey e st.endpoints with
    | none =>
      rw [findKey_none.mp hy x hx] at hex
      cases hex
    | some y =>
      have hfalse := ((h.delete k).mp hk).2 e he hroot y hy
      rw [← Endpoint.equiv_eq_eqv] at hfalse
      have htrue : k.equiv y.key = true := by
        refine Endpoint.equiv_trans hequiv (Endpoint.equiv_trans ?_ (findKey_some hy).2)
        rwa [Endpoint.equiv_comm]
      rw [htrue] at hfalse
      cases hfalse

theorem apply_spec (hwf : Wf l) (hmakes : Makes factory l) (st : Applier J) :
    ∃ st' new, Applier.apply factory l st = (st', none) ∧ Applied factory l st st' new := by
  obtain ⟨tc, td, hdiff, hspec⟩ := diffEndpoints_spec hwf st.endpoints
  obtain ⟨kept, hperm, hclosed, -⟩ := hspec.part
  obtain ⟨hnamed, hroots⟩ := hspec.root hwf
  have hsub : ∀ e ∈ tc, e ∈ l := fun e he => hperm.symm.subset (List.mem_append_left kept he)
  have hroot : ∀ e ∈ tc, (isRoot tc e = true ↔ Root l e) := fun e he => by
    rw [isRoot_iff hnamed, hroots e he]
  have hpart : ∀ e ∈ tc, createRoot factory tc e = createRoot factory l e := fun e he =>
    createRoot_part hwf.forest hperm hclosed he
  have hremove := hspec.remove hwf
  obtain ⟨new, made, hcreate, hkeys, hobjects⟩ := @create_spec _ _ factory tc (st.remove td) tc
    (fun e he hr => by
      rw [hpart e he]
      exact hmakes e (hsub e he) ((hroot e he).mp hr))
    (fun e he hr => by
      have hnone := (hspec.create e (hsub e he) ((hroot e he).mp hr)).mp he
      refine findKey_none.mpr fun x hx => findKey_none.mp hnone x ?_
      rw [hremove] at hx
      exact (List.mem_filter.mp hx).1)
    ((hwf.forest.perm hperm).left hclosed).names
  refine ⟨⟨(st.remove td).endpoints ++ new, made⟩, new, ?_, ?_, fun x hx => ?_,
    fun e he hr hn => ?_, ?_⟩
  · unfold Applier.apply
    rw [hdiff]
    exact hcreate
  · show (st.remove td).endpoints ++ new = _
    rw [hremove]
  · have hmem : x.key ∈ tc.filter (isRoot tc) := hkeys ▸ List.mem_map_of_mem hx
    obtain ⟨htc, hr⟩ := List.mem_filter.mp hmem
    have hr := (hroot x.key htc).mp hr
    exact ⟨hsub _ htc, hr, (hspec.create _ (hsub _ htc) hr).mp htc, by
      rw [← hpart _ htc]
      exact hobjects x hx⟩
  · have htc := (hspec.create e he hr).mpr hn
    have hmem : e ∈ tc.filter (isRoot tc) := List.mem_filter.mpr ⟨htc, (hroot e htc).mpr hr⟩
    rw [← hkeys] at hmem
    exact List.mem_map.mp hmem
  · have hnodup : ((new.map Running.key).map Endpoint.name).Nodup := by
      rw [hkeys]
      exact ((hwf.forest.perm hperm).left hclosed).names.sublist
        (List.filter_sublist.map Endpoint.name)
    rwa [List.map_map] at hnodup

/-! ## A fresh start -/

/-- If a fresh start does not throw, all roots can be made. -/
theorem makes_of_apply (hwf : Wf l) (h : (Applier.apply factory l start).2 = none) :
    Makes factory l := by
  obtain ⟨tc, td, hdiff, hspec⟩ := diffEndpoints_spec hwf (start : Applier J).endpoints
  obtain ⟨kept, hperm, hclosed, -⟩ := hspec.part
  obtain ⟨hnamed, hroots⟩ := hspec.root hwf
  unfold Applier.apply at h
  rw [hdiff] at h
  intro e he hr
  have htc := (hspec.create e he hr).mpr rfl
  rw [← createRoot_part hwf.forest hperm hclosed htc]
  exact createRoot_of_create h e htc ((isRoot_iff hnamed).mpr ((hroots e htc).mpr hr))

/-- A fresh start leaves the roots of the list running. -/
theorem fresh_runs (hwf : Wf l) (h : (Applier.apply factory l start).2 = none) :
    Runs factory l (Applier.apply factory l start).1 := by
  obtain ⟨st', new, happly, happlied⟩ := apply_spec hwf (makes_of_apply hwf h) start
  rw [happly]
  have hnew : st'.endpoints = new := happlied.endpoints
  refine ⟨fun x hx => ?_, fun x hx => ?_, fun e he hr => ?_, ?_⟩
  · obtain ⟨hmem, hroot, -⟩ := happlied.made x (hnew ▸ hx)
    exact ⟨hmem, hroot⟩
  · exact (happlied.made x (hnew ▸ hx)).2.2.2
  · rw [hnew]
    exact happlied.all e he hr rfl
  · rw [hnew]
    exact happlied.names

/-- The endpoint that an object was made for. -/
def Object.root : Object J → Option (Endpoint J)
  | .acceptor cfg => some cfg
  | .failover levels => levels.head?.map Level.cfg

omit [LinearOrder J] in
theorem root_of_create {object : Object J} (h : createRoot factory l r = .ok object) :
    object.root = some r := by
  unfold createRoot at h
  obtain ⟨acceptor, -, h⟩ := bind_ok h
  cases acceptor with
  | true =>
    cases h
    rfl
  | false =>
    obtain ⟨levels, hlevels, h⟩ := bind_ok h
    cases h
    obtain ⟨rest, rfl⟩ := levels_head hlevels
    rfl

omit [LinearOrder J] in
/-- The objects of two applications of a list are the same. -/
theorem Runs.perm {st st' : Applier J} (h : Runs factory l st) (h' : Runs factory l st') :
    (st.endpoints.map Running.object).Perm (st'.endpoints.map Running.object) := by
  have hnodup : ∀ {st : Applier J}, Runs factory l st → (st.endpoints.map Running.object).Nodup := by
    intro st h
    refine List.Nodup.of_map (fun o => o.root.map Endpoint.name) ?_
    rw [List.map_map, show st.endpoints.map _ =
      (st.endpoints.map fun x => x.key.name).map some from ?_]
    · exact h.names.map (Option.some_injective _)
    · rw [List.map_map]
      refine List.map_congr_left fun x hx => ?_
      show x.object.root.map _ = some x.key.name
      rw [root_of_create (h.object x hx)]
      rfl
  have hsub : ∀ {st st' : Applier J}, Runs factory l st → Runs factory l st' →
      ∀ o ∈ st.endpoints.map Running.object, o ∈ st'.endpoints.map Running.object := by
    intro st st' h h' o ho
    obtain ⟨x, hx, rfl⟩ := List.mem_map.mp ho
    obtain ⟨hmem, hroot⟩ := h.root x hx
    obtain ⟨y, hy, hkey⟩ := h'.all x.key hmem hroot
    have hobject := h'.object y hy
    rw [hkey, h.object x hx] at hobject
    rw [Except.ok.inj hobject]
    exact List.mem_map_of_mem hy
  exact (List.perm_ext_iff_of_nodup (hnodup h) (hnodup h')).mpr fun o => ⟨hsub h h' o, hsub h' h o⟩

/-! ## One list over another -/

/-- Each endpoint that a root of `c1` is made of is in `c2`, if `c2` has a root whose
configuration is that of the root. -/
def Unchanged (factory : Endpoint J → Option Bool) (c1 c2 : List (Endpoint J)) : Prop :=
  ∀ r ∈ c1, Root c1 r → (∃ e ∈ c2, Root c2 e ∧ e.equiv r = true) →
    ∀ e, Within factory c1 r e → e ∈ c2

/-- What is expected of `c2` applied over `c1`. -/
structure Reconfigured (factory : Endpoint J → Option Bool) (c1 c2 : List (Endpoint J)) : Prop where
  /-- The roots of `c2` run, each made from `c2`. -/
  runs : Runs factory c2 (Applier.apply factory c2 (Applier.apply factory c1 start).1).1
  /-- The objects are those of a fresh start. -/
  fresh : ((Applier.apply factory c2
      (Applier.apply factory c1 start).1).1.endpoints.map Running.object).Perm
    ((Applier.apply factory c2 start).1.endpoints.map Running.object)
  /-- What did not change is still there, with its serial number. -/
  kept : ∀ x ∈ (Applier.apply factory c1 start).1.endpoints, Root c2 x.key →
    (∀ e, Within factory c1 x.key e → e ∈ c2) →
      x ∈ (Applier.apply factory c2 (Applier.apply factory c1 start).1).1.endpoints
  /-- Nothing was stopped or created if the difference throws. -/
  safe : ∀ l err, diffEndpoints (Applier.apply factory c1 start).1.endpoints l = .error err →
    Applier.apply factory l (Applier.apply factory c1 start).1 =
      ((Applier.apply factory c1 start).1, some err)

/-- What runs is kept when a root of the new list has its configuration. -/
theorem Applied.mem {new : List (Running J)} {st' : Applier J} (h : Applied factory c2 st st' new)
    (hwf : Wf c2) {x : Running J} (hx : x ∈ st.endpoints)
    (hroot : ∃ e ∈ c2, Root c2 e ∧ e.equiv x.key = true) : x ∈ st'.endpoints := by
  obtain ⟨e, he, hr, hequiv⟩ := hroot
  rw [h.endpoints]
  refine List.mem_append_left _ (List.mem_filter.mpr ⟨hx, List.any_eq_true.mpr ⟨e, he, ?_⟩⟩)
  rw [Bool.and_eq_true, isRoot_iff hwf.named]
  exact ⟨hr, hequiv⟩

/-- If what both lists have is unchanged, the new list is applied as from scratch. -/
theorem Applied.runs {new : List (Running J)} {st' : Applier J} (h : Applied factory c2 st st' new)
    (hwf₁ : Wf c1) (hwf₂ : Wf c2) (hst : Runs factory c1 st) (hsame : Unchanged factory c1 c2) :
    Runs factory c2 st' := by
  have hkept : ∀ x ∈ st.endpoints, (∃ e ∈ c2, Root c2 e ∧ e.equiv x.key = true) →
      x.key ∈ c2 ∧ Root c2 x.key ∧ createRoot factory c2 x.key = .ok x.object := by
    intro x hx hroot
    obtain ⟨hmem, hr⟩ := hst.root x hx
    have hwithin := hsame x.key hmem hr hroot
    have hmem₂ := hwithin x.key (within_self factory c1 x.key)
    obtain ⟨e, he, hre, hequiv⟩ := hroot
    obtain rfl : e = x.key :=
      eq_of_name hwf₂.forest.names he hmem₂ (Endpoint.name_of_equiv hequiv)
    refine ⟨he, hre, ?_⟩
    rw [← createRoot_unchanged hwf₁.forest hwf₂.forest hmem hwithin]
    exact hst.object x hx
  have hmatch : ∀ x ∈ st.endpoints.filter (fun x => c2.any fun e => isRoot c2 e && e.equiv x.key),
      x ∈ st.endpoints ∧ ∃ e ∈ c2, Root c2 e ∧ e.equiv x.key = true := by
    intro x hx
    obtain ⟨hx, hany⟩ := List.mem_filter.mp hx
    obtain ⟨e, he, hand⟩ := List.any_eq_true.mp hany
    rw [Bool.and_eq_true, isRoot_iff hwf₂.named] at hand
    exact ⟨hx, e, he, hand⟩
  refine ⟨fun x hx => ?_, fun x hx => ?_, fun e he hr => ?_, ?_⟩
  · rw [h.endpoints] at hx
    rcases List.mem_append.mp hx with hx | hx
    · obtain ⟨hx, hroot⟩ := hmatch x hx
      obtain ⟨hmem, hr, -⟩ := hkept x hx hroot
      exact ⟨hmem, hr⟩
    · obtain ⟨hmem, hr, -⟩ := h.made x hx
      exact ⟨hmem, hr⟩
  · rw [h.endpoints] at hx
    rcases List.mem_append.mp hx with hx | hx
    · obtain ⟨hx, hroot⟩ := hmatch x hx
      exact (hkept x hx hroot).2.2
    · exact (h.made x hx).2.2.2
  · cases hfind : findKey e st.endpoints with
    | none =>
      obtain ⟨x, hx, hkey⟩ := h.all e he hr hfind
      exact ⟨x, by rw [h.endpoints]; exact List.mem_append_right _ hx, hkey⟩
    | some x =>
      obtain ⟨hx, hequiv⟩ := findKey_some hfind
      have hroot : ∃ e ∈ c2, Root c2 e ∧ e.equiv x.key = true := ⟨e, he, hr, hequiv⟩
      refine ⟨x, h.mem hwf₂ hx hroot, ?_⟩
      exact eq_of_name hwf₂.forest.names (hkept x hx hroot).1 he
        (Endpoint.name_of_equiv hequiv).symm
  · rw [h.endpoints, List.map_append]
    refine (hst.names.sublist (List.filter_sublist.map _)).append h.names fun name hold hnew => ?_
    obtain ⟨x, hx, rfl⟩ := List.mem_map.mp hold
    obtain ⟨y, hy, hname⟩ := List.mem_map.mp hnew
    obtain ⟨hx, e, he, hr, hequiv⟩ := hmatch x hx
    obtain ⟨hmem, -, hnone, -⟩ := h.made y hy
    have hsame : e = y.key := eq_of_name hwf₂.forest.names he hmem
      ((Endpoint.name_of_equiv hequiv).trans hname.symm)
    rw [← hsame] at hnone
    rw [findKey_none.mp hnone x hx] at hequiv
    cases hequiv

section Both

variable (hwf₁ : Wf c1) (hwf₂ : Wf c2) (hc1 : (Applier.apply factory c1 start).2 = none)
  (hc2 : (Applier.apply factory c2 start).2 = none)
include hwf₁ hwf₂ hc1 hc2

theorem Unchanged.reconfigured (h : Unchanged factory c1 c2) : Reconfigured factory c1 c2 := by
  have hst := fresh_runs hwf₁ hc1
  obtain ⟨st', new, happly, happlied⟩ :=
    apply_spec hwf₂ (makes_of_apply hwf₂ hc2) (Applier.apply factory c1 start).1
  have hst' : (Applier.apply factory c2 (Applier.apply factory c1 start).1).1 = st' := by
    rw [happly]
  have hruns := happlied.runs hwf₁ hwf₂ hst h
  refine ⟨by rwa [hst'], by rw [hst']; exact hruns.perm (fresh_runs hwf₂ hc2),
    fun x hx hroot hwithin => ?_, fun l err => apply_of_diff_error⟩
  rw [hst']
  exact happlied.mem hwf₂ hx
    ⟨x.key, hwithin x.key (within_self factory c1 x.key), hroot, Endpoint.equiv_refl _⟩

/-- A root that both lists have still runs with the object made from the first list. -/
theorem Reconfigured.unchanged (h : Reconfigured factory c1 c2) : Unchanged factory c1 c2 := by
  have hst := fresh_runs hwf₁ hc1
  obtain ⟨st', new, happly, happlied⟩ :=
    apply_spec hwf₂ (makes_of_apply hwf₂ hc2) (Applier.apply factory c1 start).1
  have hruns := h.runs
  rw [happly] at hruns
  intro r hr hroot hmatch e hwithin
  obtain ⟨x, hx, rfl⟩ := hst.all r hr hroot
  have hx' := happlied.mem hwf₂ hx hmatch
  have hmem := (mem_configs hwf₁.forest.names (hst.object x hx)).mpr hwithin
  exact ((mem_configs hwf₂.forest.names (hruns.object x hx')).mp hmem).mem (hruns.root x hx').1

/-- A list is applied over another as from scratch exactly when each root that both have is made
of endpoints that did not change. -/
theorem reconfigured_iff : Reconfigured factory c1 c2 ↔ Unchanged factory c1 c2 :=
  ⟨Reconfigured.unchanged hwf₁ hwf₂ hc1 hc2, Unchanged.reconfigured hwf₁ hwf₂ hc1 hc2⟩

end Both

/-! ## A failover that changes -/

/-- An endpoint with a name, its failovers and a buffering timeout. -/
def endpointOf (name : String) (failovers : List String) (timeout : ℤ) : Endpoint ℕ :=
  ⟨.output, timeout, failovers, name, [], [], -1, 30, "tcp", [], false, 0⟩

/-- A central output and its failover. -/
def centralOf (timeout : ℤ) : List (Endpoint ℕ) :=
  [endpointOf "central" ["backup"] 0, endpointOf "backup" [] timeout]

theorem wf_centralOf (timeout : ℤ) : Wf (centralOf timeout) where
  forest := by
    refine ⟨by simp [centralOf, endpointOf], fun e he f hf => ?_, by simp [centralOf, endpointOf],
      acyclic_of_measure (fun b => if b = "central" then 1 else 0) ?_⟩
    · simp only [centralOf, List.mem_cons, List.not_mem_nil, or_false] at he
      rcases he with rfl | rfl
      · obtain rfl := List.mem_singleton.mp hf
        simp [centralOf, endpointOf]
      · cases hf
    · rintro b c ⟨e, he, rfl, hc⟩
      simp only [centralOf, List.mem_cons, List.not_mem_nil, or_false] at he
      rcases he with rfl | rfl
      · obtain rfl := List.mem_singleton.mp hc
        simp [endpointOf]
      · cases hc
  named := by simp [centralOf, endpointOf]

theorem apply_centralOf (timeout : ℤ) :
    (Applier.apply (fun _ => some false) (centralOf timeout) start).2 = none := rfl

theorem reconfigured_iff_centralOf :
    Reconfigured (fun _ => some false) (centralOf 0) (centralOf 10) ↔
      Unchanged (fun _ => some false) (centralOf 0) (centralOf 10) :=
  reconfigured_iff (wf_centralOf 0) (wf_centralOf 10) (apply_centralOf 0) (apply_centralOf 10)

/-- The root is the same, and its failover is not: nothing is restarted. -/
theorem not_reconfigured : ¬ ∀ (factory : Endpoint ℕ → Option Bool) (c1 c2 : List (Endpoint ℕ)),
    Wf c1 → Wf c2 → (Applier.apply factory c1 start).2 = none →
      (Applier.apply factory c2 start).2 = none → Reconfigured factory c1 c2 := by
  intro h
  have hwf₁ := wf_centralOf 0
  have hwf₂ := wf_centralOf 10
  have hunchanged := (h (fun _ => some false) (centralOf 0) (centralOf 10) hwf₁ hwf₂
    (apply_centralOf 0) (apply_centralOf 10)).unchanged hwf₁ hwf₂ (apply_centralOf 0)
    (apply_centralOf 10)
  have hroot : ∀ timeout, Root (centralOf timeout) (endpointOf "central" ["backup"] 0) := by
    intro timeout hmem
    simp [centralOf, endpointOf] at hmem
  have hbackup : endpointOf "backup" [] 0 ∈ centralOf 0 := List.mem_cons_of_mem _ List.mem_cons_self
  have hwithin : Within (fun _ => some false) (centralOf 0) (endpointOf "central" ["backup"] 0)
      (endpointOf "backup" [] 0) :=
    ⟨_, .failover rfl hbackup rfl (.self _), .inl rfl⟩
  have hmem := hunchanged _ List.mem_cons_self (hroot 0)
    ⟨_, List.mem_cons_self, hroot 10, Endpoint.equiv_refl _⟩ _ hwithin
  simp [centralOf, endpointOf] at hmem

end CentreonBroker.Config
