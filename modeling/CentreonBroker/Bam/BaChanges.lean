import CentreonBroker.Bam.BaSource

/-!
# Configurations of BAs, one after the other

The objects by the ids of their BAs, and what each loop of `apply` does to them: it deals with
the ids of its own list, each one once, and leaves the other ones. The book has the objects by
the ids that they were created with.
-/

namespace CentreonBroker.Bam.BaApplier

open AList

open Applier (Applied)

variable {E : Type}

namespace World

/-- The configuration and the object of a BA. -/
def find (w : World E) (id : ℕ) : Option (BaConfig E × BaObject) :=
  (w.applied.lookup id).map fun a => (a.cfg, w.objects a.obj)

/-- What holds between any two calls. -/
structure Inv (w : World E) : Prop where
  fresh : ∀ id a, w.applied.lookup id = some a → a.obj < w.next
  unique : ∀ id a, w.applied.lookup id = some a → (w.objects a.obj).id = id
  nodup : w.book.Nodup
  booked : ∀ ids p, (ids, p) ∈ w.book ↔ ∃ id a, w.applied.lookup id = some a ∧ p = a.obj ∧
    ids = ((w.objects p).host_id, (w.objects p).service_id)

theorem inv_init : Inv (init : World E) where
  fresh _ _ h := by cases h
  unique _ _ h := by cases h
  nodup := List.nodup_nil
  booked _ _ := ⟨nofun, fun ⟨_, _, h, _⟩ => by cases h⟩

variable {w : World E} {a : Applied (BaConfig E)} {id : ℕ}

theorem find_eq_some
    (h : w.applied.lookup id = some a) : w.find id = some (a.cfg, w.objects a.obj) := by
  rw [find, h]
  rfl

/-- Two BAs have two objects. -/
theorem Inv.injective (h : Inv w) {id' : ℕ} {a' : Applied (BaConfig E)}
    (ha : w.applied.lookup id = some a) (ha' : w.applied.lookup id' = some a')
    (heq : a.obj = a'.obj) : id = id' := by
  rw [← h.unique id a ha, ← h.unique id' a' ha', heq]

/-! ## One turn of a loop -/

/-- A BA that is deleted, with the ids its object was created with. -/
theorem Inv.deleteBa (h : Inv w)
    (ha : w.applied.lookup id = some a) (hhost : (w.objects a.obj).host_id = a.cfg.host_id)
    (hservice : (w.objects a.obj).service_id = a.cfg.service_id) :
    Inv (deleteBa ⟨id, a⟩ w) ∧
      ∀ id', (World.deleteBa ⟨id, a⟩ w).find id' = if id' = id then none else w.find id' := by
  have hlookup := Entries.lookup_erase w.applied id
  constructor
  · constructor
    · intro id' a' h'
      rw [World.deleteBa, hlookup] at h'
      split at h'
      · cases h'
      · exact h.fresh id' a' h'
    · intro id' a' h'
      rw [World.deleteBa, hlookup] at h'
      split at h'
      · cases h'
      · exact h.unique id' a' h'
    · exact h.nodup.erase _
    · intro ids p
      show (ids, p) ∈ w.book.erase ((a.cfg.host_id, a.cfg.service_id), a.obj) ↔ _
      rw [h.nodup.mem_erase_iff, h.booked]
      constructor
      · rintro ⟨hne, id', a', ha', rfl, rfl⟩
        refine ⟨id', a', ?_, rfl, rfl⟩
        show (w.applied.erase id).lookup id' = some a'
        rw [hlookup, if_neg]
        · exact ha'
        · -- the entry that is erased is the one of the BA
          rintro rfl
          obtain rfl : a = a' := Option.some.inj (ha.symm.trans ha')
          exact hne (by rw [hhost, hservice])
      · rintro ⟨id', a', ha', rfl, rfl⟩
        have ha' : (w.applied.erase id).lookup id' = some a' := ha'
        rw [hlookup] at ha'
        split at ha'
        · cases ha'
        · rename_i hne
          refine ⟨?_, id', a', ha', rfl, rfl⟩
          intro heq
          exact hne (h.injective ha' ha (Prod.mk.inj heq).2)
  · intro id'
    rw [find, World.deleteBa, hlookup]
    split
    · rfl
    · rfl

theorem Inv.createBa (h : Inv w) (cfg : BaConfig E)
    (hnew : w.applied.lookup id = none) :
    Inv (createBa ⟨id, cfg⟩ w) ∧ ∀ id', (World.createBa ⟨id, cfg⟩ w).find id' =
      if id' = id then some (cfg, newBa id cfg) else w.find id' := by
  have hlookup := Entries.lookup_insert w.applied id ⟨cfg, w.next⟩
  have hself : Function.update w.objects w.next (newBa id cfg) w.next = newBa id cfg :=
    Function.update_self _ _ _
  have hother : ∀ id' a', w.applied.lookup id' = some a' →
      Function.update w.objects w.next (newBa id cfg) a'.obj = w.objects a'.obj :=
    fun id' a' ha' => Function.update_of_ne (Nat.ne_of_lt (h.fresh id' a' ha')) _ _
  have hbound : ∀ ids p, (ids, p) ∈ w.book → p < w.next := by
    intro ids p hmem
    obtain ⟨id', a', ha', rfl, -⟩ := (h.booked ids p).mp hmem
    exact h.fresh id' a' ha'
  constructor
  · constructor
    · intro id' a' h'
      rw [World.createBa, hlookup] at h'
      show a'.obj < w.next + 1
      split at h'
      · rw [← Option.some.inj h']
        exact Nat.lt_succ_self _
      · exact Nat.lt_succ_of_lt (h.fresh id' a' h')
    · intro id' a' h'
      rw [World.createBa, hlookup] at h'
      show (Function.update w.objects w.next (newBa id cfg) a'.obj).id = id'
      split at h'
      · rename_i hid
        rw [← Option.some.inj h', hself, hid]
        rfl
      · rw [hother id' a' h']
        exact h.unique id' a' h'
    · refine List.Nodup.append h.nodup (List.nodup_singleton _) ?_
      intro e he he'
      rw [List.mem_singleton.mp he'] at he
      exact Nat.lt_irrefl _ (hbound _ _ he)
    · intro ids p
      show (ids, p) ∈ w.book ++ [_] ↔ _
      rw [List.mem_append, List.mem_singleton, h.booked]
      constructor
      · rintro (⟨id', a', ha', rfl, rfl⟩ | heq)
        · refine ⟨id', a', ?_, rfl, ?_⟩
          · show (w.applied.insert id ⟨cfg, w.next⟩).lookup id' = some a'
            rw [hlookup, if_neg]
            · exact ha'
            · rintro rfl
              rw [hnew] at ha'
              cases ha'
          · show _ = ((Function.update w.objects w.next (newBa id cfg) a'.obj).host_id, _)
            rw [hother id' a' ha']
            show _ = ((w.objects a'.obj).host_id,
              (Function.update w.objects w.next (newBa id cfg) a'.obj).service_id)
            rw [hother id' a' ha']
        · obtain ⟨rfl, rfl⟩ := Prod.mk.inj heq
          refine ⟨id, ⟨cfg, w.next⟩, ?_, rfl, ?_⟩
          · show (w.applied.insert id ⟨cfg, w.next⟩).lookup id = _
            rw [hlookup, if_pos rfl]
          · show _ = ((Function.update w.objects w.next (newBa id cfg) w.next).host_id,
              (Function.update w.objects w.next (newBa id cfg) w.next).service_id)
            rw [hself]
            rfl
      · rintro ⟨id', a', ha', rfl, rfl⟩
        have ha' : (w.applied.insert id ⟨cfg, w.next⟩).lookup id' = some a' := ha'
        rw [hlookup] at ha'
        split at ha'
        · right
          rw [← Option.some.inj ha']
          show ((( Function.update w.objects w.next (newBa id cfg) w.next).host_id,
            (Function.update w.objects w.next (newBa id cfg) w.next).service_id), w.next) = _
          rw [hself]
          rfl
        · left
          refine ⟨id', a', ha', rfl, ?_⟩
          show ((Function.update w.objects w.next (newBa id cfg) a'.obj).host_id,
            (Function.update w.objects w.next (newBa id cfg) a'.obj).service_id) = _
          rw [hother id' a' ha']
  · intro id'
    rw [find, World.createBa, hlookup]
    split
    · rw [Option.map_some]
      dsimp only
      rw [hself]
    · rw [find]
      cases ha' : w.applied.lookup id' with
      | none => rfl
      | some a' =>
        rw [Option.map_some, Option.map_some]
        dsimp only
        rw [hother id' a' ha']

/-- Objects that change without their ids. -/
theorem Inv.objects (h : Inv w) {objects : ℕ → BaObject}
    (hids : ∀ p, (objects p).id = (w.objects p).id ∧ (objects p).host_id = (w.objects p).host_id ∧
      (objects p).service_id = (w.objects p).service_id) : Inv { w with objects := objects } where
  fresh := h.fresh
  unique id a ha := (hids a.obj).1.trans (h.unique id a ha)
  nodup := h.nodup
  booked ids p := by
    show (ids, p) ∈ w.book ↔ ∃ id a, w.applied.lookup id = some a ∧ p = a.obj ∧
      ids = ((objects p).host_id, (objects p).service_id)
    rw [(hids p).2.1, (hids p).2.2]
    exact h.booked ids p

/-- A BA that is modified keeps its object. -/
theorem Inv.modifyBa (h : Inv w)
    (cfg : BaConfig E) (ha : w.applied.lookup id = some a) :
    Inv (modifyBa ⟨id, cfg⟩ w) ∧ ∀ id', (World.modifyBa ⟨id, cfg⟩ w).find id' =
      if id' = id then some (cfg, modified cfg (w.objects a.obj)) else w.find id' := by
  have heq : World.modifyBa ⟨id, cfg⟩ w =
      { w with
        applied := w.applied.insert id ⟨cfg, a.obj⟩
        objects := Function.update w.objects a.obj (modified cfg (w.objects a.obj)) } := by
    rw [World.modifyBa, ha]
  have hlookup := Entries.lookup_insert w.applied id (⟨cfg, a.obj⟩ : Applied (BaConfig E))
  have hids : ∀ p, let o := Function.update w.objects a.obj (modified cfg (w.objects a.obj)) p
      o.id = (w.objects p).id ∧ o.host_id = (w.objects p).host_id ∧
        o.service_id = (w.objects p).service_id := by
    intro p o
    by_cases hp : p = a.obj
    · subst hp
      have ho : o = modified cfg (w.objects a.obj) := Function.update_self _ _ _
      rw [ho]
      exact ⟨rfl, rfl, rfl⟩
    · have ho : o = w.objects p := Function.update_of_ne hp _ _
      rw [ho]
      exact ⟨rfl, rfl, rfl⟩
  -- an entry leads to the object that it led to
  have hentry : ∀ id' a', (w.applied.insert id ⟨cfg, a.obj⟩).lookup id' = some a' →
      ∃ b, w.applied.lookup id' = some b ∧ b.obj = a'.obj := by
    intro id' a' h'
    rw [hlookup] at h'
    split at h'
    · rename_i hid
      rw [← Option.some.inj h', hid]
      exact ⟨a, ha, rfl⟩
    · exact ⟨a', h', rfl⟩
  have hobjects := h.objects hids
  rw [heq]
  constructor
  · constructor
    · intro id' a' h'
      obtain ⟨b, hb, hobj⟩ := hentry id' a' h'
      rw [← hobj]
      exact h.fresh id' b hb
    · intro id' a' h'
      obtain ⟨b, hb, hobj⟩ := hentry id' a' h'
      rw [← hobj]
      exact hobjects.unique id' b hb
    · exact h.nodup
    · intro ids p
      refine (hobjects.booked ids p).trans ?_
      constructor
      · rintro ⟨id', a', ha', rfl, hp⟩
        by_cases hid : id' = id
        · subst hid
          obtain rfl : a = a' := Option.some.inj (ha.symm.trans ha')
          exact ⟨id', ⟨cfg, a.obj⟩, lookup_insert _, rfl, hp⟩
        · refine ⟨id', a', ?_, rfl, hp⟩
          show (w.applied.insert id ⟨cfg, a.obj⟩).lookup id' = some a'
          rw [hlookup, if_neg hid]
          exact ha'
      · rintro ⟨id', a', ha', rfl, hp⟩
        obtain ⟨b, hb, hobj⟩ := hentry id' a' ha'
        exact ⟨id', b, hb, hobj.symm, hp⟩
  · intro id'
    rw [find]
    dsimp only
    rw [hlookup]
    split
    · rw [Option.map_some]
      dsimp only
      rw [Function.update_self]
    · rename_i hne
      rw [find]
      cases ha' : w.applied.lookup id' with
      | none => rfl
      | some a' =>
        have hobj : a'.obj ≠ a.obj := fun hobj => hne (h.injective ha' ha hobj)
        rw [Option.map_some, Option.map_some]
        rw [Function.update_of_ne hobj]

theorem Inv.validateAll (h : Inv w) : Inv (validateAll w) ∧
    ∀ id, (World.validateAll w).find id = (w.find id).map fun e => (e.1, validated e.2) := by
  constructor
  · refine h.objects fun p => ?_
    split
    · exact ⟨rfl, rfl, rfl⟩
    · exact ⟨rfl, rfl, rfl⟩
  · intro id
    rw [find, find]
    show (w.applied.lookup id).map _ = _
    cases ha : w.applied.lookup id with
    | none => rfl
    | some a =>
      have hany : w.applied.entries.any (fun e => e.2.obj = a.obj) = true :=
        List.any_eq_true.mpr ⟨⟨id, a⟩, mem_lookup_iff.mp ha, decide_eq_true rfl⟩
      rw [Option.map_some, Option.map_some, Option.map_some]
      dsimp only [World.validateAll]
      rw [if_pos hany]

theorem Inv.attach (h : Inv w) (impacts : ℕ → List (ℕ × ImpactInfo)) :
    Inv (w.attach impacts) ∧
      ∀ id, (w.attach impacts).find id = (w.find id).map fun e => (e.1, e.2.attach (impacts id)) := by
  constructor
  · exact h.objects fun p => ⟨rfl, rfl, rfl⟩
  · intro id
    rw [find, find]
    show (w.applied.lookup id).map _ = _
    cases ha : w.applied.lookup id with
    | none => rfl
    | some a =>
      rw [Option.map_some, Option.map_some, Option.map_some]
      dsimp only [World.attach]
      rw [h.unique id a ha]

/-! ## The loops -/

/-- A loop deals with the ids of its list, each as one turn does. -/
theorem foldl_find {β : Type} {act : (Sigma fun _ : ℕ => β) → World E → World E}
    (ready : ℕ → β → World E → Prop)
    (after : ℕ → β → Option (BaConfig E × BaObject) → Option (BaConfig E × BaObject))
    (hact : ∀ (id : ℕ) (x : β) (w : World E), Inv w → ready id x w → Inv (act ⟨id, x⟩ w) ∧
      (∀ id', (act ⟨id, x⟩ w).find id' = if id' = id then after id x (w.find id) else w.find id') ∧
      ∀ id' x', id' ≠ id → ready id' x' w → ready id' x' (act ⟨id, x⟩ w))
    {l : List (Sigma fun _ : ℕ => β)} (hnodup : l.NodupKeys) (h : Inv w)
    (hready : ∀ id x, ⟨id, x⟩ ∈ l → ready id x w) :
    Inv (l.foldl (fun w e => act e w) w) ∧ ∀ id, (l.foldl (fun w e => act e w) w).find id =
      (l.dlookup id).elim (w.find id) fun x => after id x (w.find id) := by
  induction l generalizing w with
  | nil => exact ⟨h, fun _ => rfl⟩
  | cons e l ih =>
    obtain ⟨id, x⟩ := e
    obtain ⟨hnot, hnodup⟩ := List.nodupKeys_cons.mp hnodup
    obtain ⟨hinv, hfind, hkeeps⟩ := hact id x w h (hready id x List.mem_cons_self)
    have hother : ∀ id' x', ⟨id', x'⟩ ∈ l → id' ≠ id := by
      intro id' x' hmem heq
      have hkey : id' ∈ l.keys := @List.mem_keys_of_mem _ _ ⟨id', x'⟩ l hmem
      exact hnot (heq ▸ hkey)
    obtain ⟨hinv', hfind'⟩ := ih hnodup hinv fun id' x' hmem =>
      hkeeps id' x' (hother id' x' hmem) (hready id' x' (List.mem_cons_of_mem _ hmem))
    refine ⟨hinv', fun id' => ?_⟩
    rw [List.foldl_cons, hfind', hfind]
    by_cases hid : id' = id
    · subst hid
      rw [List.dlookup_cons_eq, List.dlookup_eq_none.mpr hnot, if_pos rfl]
      rfl
    · rw [List.dlookup_cons_ne _ _ hid, if_neg hid]

/-- The objects have the ids of the configurations they were last applied with. -/
def Faithful (w : World E) : Prop :=
  ∀ id a, w.applied.lookup id = some a → (w.objects a.obj).host_id = a.cfg.host_id ∧
    (w.objects a.obj).service_id = a.cfg.service_id

/-- The object of a BA once a configuration was applied. -/
def result [DecidableEq E] (id : ℕ) (cfg : BaConfig E) :
    Option (BaConfig E × BaObject) → BaObject
  | none => newBa id cfg
  | some (old, o) => validated (if old = cfg then o else modified cfg o)

theorem dlookup_filter {β : Type} {l : List (Sigma fun _ : ℕ => β)} (hnodup : l.NodupKeys)
    (p : (Sigma fun _ : ℕ => β) → Bool) (id : ℕ) :
    (l.filter p).dlookup id = (l.dlookup id).filter fun x => p ⟨id, x⟩ := by
  have hfilter : (l.filter p).NodupKeys := hnodup.sublist List.filter_sublist
  refine Option.ext fun x => ?_
  show x ∈ (l.filter p).dlookup id ↔ x ∈ (l.dlookup id).filter fun x => p ⟨id, x⟩
  rw [List.mem_dlookup_iff hfilter, List.mem_filter, Option.mem_filter_iff,
    List.mem_dlookup_iff hnodup]

/-- What stays of the BAs once the first loop has run. -/
theorem deleted_spec (h : Inv w) (hf : Faithful w) (cfgs : Configs E) :
    let w' := (toDelete cfgs w).foldl (fun w e => deleteBa e w) w
    Inv w' ∧ ∀ id, w'.find id = if id ∈ cfgs then w.find id else none := by
  have hnodup : (toDelete cfgs w).NodupKeys := w.applied.nodupKeys.sublist List.filter_sublist
  obtain ⟨hinv, hfind⟩ := foldl_find
    (fun id a w => w.applied.lookup id = some a ∧
      (w.objects a.obj).host_id = a.cfg.host_id ∧ (w.objects a.obj).service_id = a.cfg.service_id)
    (fun _ _ _ => none)
    (fun id a w hw ⟨ha, hhost, hservice⟩ => by
      obtain ⟨hinv, hfind⟩ := hw.deleteBa ha hhost hservice
      refine ⟨hinv, hfind, ?_⟩
      rintro id' a' hne ⟨ha', hids⟩
      exact ⟨(lookup_erase_ne hne).trans ha', hids⟩)
    hnodup h fun id a hmem => by
      have ha := mem_lookup_iff.mpr (List.mem_of_mem_filter hmem)
      exact ⟨ha, hf id a ha⟩
  refine ⟨hinv, fun id => ?_⟩
  rw [hfind, toDelete, dlookup_filter w.applied.nodupKeys, ← AList.lookup, find]
  cases ha : w.applied.lookup id with
  | none =>
    rw [Option.map_none, ite_self]
    rfl
  | some a =>
    by_cases hid : id ∈ cfgs
    · simp [hid]
    · simp [hid, Option.filter]

/-- What there is once the second loop has run. -/
theorem created_spec {w' : World E} (h : Inv w) {cfgs : Configs E}
    (hfind : ∀ id, w.find id = if id ∈ cfgs then w'.find id else none) :
    let w'' := (toCreate cfgs w').foldl (fun w e => createBa e w) w
    Inv w'' ∧ ∀ id, w''.find id = (cfgs.lookup id).bind fun cfg =>
      (w'.find id).or (some (cfg, newBa id cfg)) := by
  have hnodup : (toCreate cfgs w').NodupKeys := cfgs.nodupKeys.sublist List.filter_sublist
  have hnone : ∀ {w : World E} {id}, w.find id = none ↔ w.applied.lookup id = none := by
    intro w id
    rw [find, Option.map_eq_none_iff]
  obtain ⟨hinv, hfind'⟩ := foldl_find
    (fun id _ w => w.applied.lookup id = none)
    (fun id cfg _ => some (cfg, newBa id cfg))
    (fun id cfg w hw hnew => by
      obtain ⟨hinv, hfind⟩ := hw.createBa cfg hnew
      exact ⟨hinv, hfind, fun id' cfg' hne hnew' => (lookup_insert_ne hne).trans hnew'⟩)
    hnodup h fun id cfg hmem => by
      obtain ⟨hmem, hnew⟩ := List.mem_filter.mp hmem
      have hnew : w'.applied.lookup id = none := lookup_eq_none.mpr (of_decide_eq_true hnew)
      rw [← hnone, hfind, hnone.mpr hnew, ite_self]
  refine ⟨hinv, fun id => ?_⟩
  rw [hfind', toCreate, dlookup_filter cfgs.nodupKeys, ← AList.lookup, hfind]
  cases hcfg : cfgs.lookup id with
  | none =>
    have hid : id ∉ cfgs := lookup_eq_none.mp hcfg
    rw [if_neg hid]
    rfl
  | some cfg =>
    have hid : id ∈ cfgs := lookup_isSome.mp (by rw [hcfg]; rfl)
    rw [if_pos hid]
    cases ha : w'.applied.lookup id with
    | none =>
      have hnew : id ∉ w'.applied := lookup_eq_none.mp ha
      rw [hnone.mpr ha]
      simp [hnew, Option.filter]
    | some a =>
      have hold : id ∈ w'.applied := lookup_isSome.mp (by rw [ha]; rfl)
      rw [find_eq_some ha]
      simp [hold]

/-- **What `apply` makes of the BAs.** -/
theorem apply_spec [DecidableEq E] (h : Inv w) (hf : Faithful w) (cfgs : Configs E) :
    Inv (apply cfgs w) ∧ ∀ id, (apply cfgs w).find id =
      (cfgs.lookup id).map fun cfg => (cfg, result id cfg (w.find id)) := by
  obtain ⟨hdeleted, hfind₁⟩ := deleted_spec h hf cfgs
  obtain ⟨hcreated, hfind₂⟩ := created_spec hdeleted hfind₁
  have hnodup : (toModify cfgs w).NodupKeys := cfgs.nodupKeys.sublist List.filter_sublist
  obtain ⟨hmodified, hfind₃⟩ := foldl_find
    (fun id _ w => ∃ a, w.applied.lookup id = some a)
    (fun _ cfg found => found.map fun e => (cfg, modified cfg e.2))
    (fun id cfg w hw ⟨a, ha⟩ => by
      obtain ⟨hinv, hfind⟩ := hw.modifyBa cfg ha
      refine ⟨hinv, fun id' => ?_, ?_⟩
      · rw [hfind, find_eq_some ha]
        rfl
      · rintro id' cfg' hne ⟨a', ha'⟩
        refine ⟨a', ?_⟩
        rw [World.modifyBa, ha]
        exact (lookup_insert_ne hne).trans ha')
    hnodup hcreated fun id cfg hmem => by
      -- what is modified was there, and is there still
      obtain ⟨hmem, hold⟩ := List.mem_filter.mp hmem
      have hcfg : cfgs.lookup id = some cfg := mem_lookup_iff.mpr hmem
      have hfind := hfind₂ id
      cases ha : w.applied.lookup id with
      | none =>
        rw [ha] at hold
        cases hold
      | some a =>
        rw [hcfg, find_eq_some ha] at hfind
        obtain ⟨a', ha', -⟩ := Option.map_eq_some_iff.mp hfind
        exact ⟨a', ha'⟩
  obtain ⟨hvalid, hfind₄⟩ := hmodified.validateAll
  refine ⟨hvalid, fun id => ?_⟩
  refine (hfind₄ id).trans ?_
  rw [hfind₃, toModify, dlookup_filter cfgs.nodupKeys, ← AList.lookup, hfind₂]
  cases hcfg : cfgs.lookup id with
  | none => rfl
  | some cfg =>
    cases ha : w.applied.lookup id with
    | none =>
      have hfind : w.find id = none := by rw [find, ha]; rfl
      rw [hfind]
      simp only [ha, Option.filter, Option.any_none, Bool.false_eq_true, if_false,
        Option.elim_none, Option.bind_some, Option.none_or, Option.map_some]
      rfl
    | some a =>
      rw [find_eq_some ha]
      simp only [ha, Option.filter, Option.any_some, Option.bind_some, Option.some_or,
        Option.map_some, result]
      by_cases heq : a.cfg = cfg
      · simp [heq]
      · simp [heq]

end World

/-! ## Two configurations, one after the other -/

variable [DecidableEq E]

/-- The BAs once two configurations were applied, with impacts added in between. -/
def twice (cfgs cfgs' : Configs E) (impacts : ℕ → List (ℕ × ImpactInfo)) : World E :=
  ((World.init.apply cfgs).attach impacts).apply cfgs'

/-- What a BA is given before the second configuration: those that are new have no KPIs. -/
def given (cfgs : Configs E) (impacts : ℕ → List (ℕ × ImpactInfo)) (id : ℕ) :
    List (ℕ × ImpactInfo) :=
  if id ∈ cfgs then impacts id else []

/-- `_new_ba` and `set_state_source`, as a `Config`. -/
def BaConfig.config (cfg : BaConfig E) : Config :=
  ⟨cfg.state_source, cfg.dt_behaviour, cfg.critical_level, cfg.warning_level, true⟩

/-- A configuration that may come after another one for the same BA. -/
structure Follows (fl : ℚ → ℚ) (old cfg : BaConfig E) : Prop where
  host_id : old.host_id = cfg.host_id
  service_id : old.service_id = cfg.service_id
  dt_behaviour : old.dt_behaviour = cfg.dt_behaviour
  state_source : Carries fl old.state_source cfg.config

/-- The objects in the end. -/
theorem twice_find (cfgs cfgs' : Configs E) (impacts : ℕ → List (ℕ × ImpactInfo)) :
    (twice cfgs cfgs' impacts).Inv ∧ ∀ id, (twice cfgs cfgs' impacts).find id =
      (cfgs'.lookup id).map fun cfg => (cfg, match cfgs.lookup id with
        | none => World.newBa id cfg
        | some old => World.validated
          (if old = cfg then (World.newBa id old).attach (impacts id)
          else World.modified cfg ((World.newBa id old).attach (impacts id)))) := by
  have hfaithful : World.Faithful (World.init : World E) := fun _ _ h => by cases h
  obtain ⟨hinv, hfind⟩ := World.apply_spec World.inv_init hfaithful cfgs
  obtain ⟨hinv', hfind'⟩ := hinv.attach impacts
  have hnew : ∀ id, ((World.init.apply cfgs).attach impacts).find id =
      (cfgs.lookup id).map fun cfg => (cfg, (World.newBa id cfg).attach (impacts id)) := by
    intro id
    rw [hfind', hfind, Option.map_map]
    rfl
  have hfaithful' : World.Faithful ((World.init.apply cfgs).attach impacts) := by
    intro id a ha
    have heq := hnew id
    rw [World.find_eq_some ha] at heq
    obtain ⟨cfg, -, hpair⟩ := Option.map_eq_some_iff.mp heq.symm
    obtain ⟨hcfg, hobject⟩ := Prod.mk.inj hpair
    rw [← hcfg, ← hobject]
    exact ⟨rfl, rfl⟩
  obtain ⟨hinv'', hfind''⟩ := World.apply_spec hinv' hfaithful' cfgs'
  refine ⟨hinv'', fun id => ?_⟩
  refine (hfind'' id).trans ?_
  rw [hnew]
  cases cfgs.lookup id with
  | none => rfl
  | some old => rfl

variable {cfgs' cfgs : Configs E} {cfg : BaConfig E}

/-- The object of a BA in the end. -/
theorem twice_object (impacts : ℕ → List (ℕ × ImpactInfo)) {id : ℕ}
    (hcfg : cfgs'.lookup id = some cfg) {a : Applied (BaConfig E)}
    (ha : (twice cfgs cfgs' impacts).applied.lookup id = some a) :
    (twice cfgs cfgs' impacts).objects a.obj = match cfgs.lookup id with
      | none => World.newBa id cfg
      | some old => World.validated
        (if old = cfg then (World.newBa id old).attach (impacts id)
        else World.modified cfg ((World.newBa id old).attach (impacts id))) := by
  have hfind := (twice_find cfgs cfgs' impacts).2 id
  rw [World.find_eq_some ha, hcfg] at hfind
  exact (Prod.mk.inj (Option.some.inj hfind)).2

theorem mem_twice (cfgs : Configs E) (impacts : ℕ → List (ℕ × ImpactInfo)) (id : ℕ) :
    (∃ a, (twice cfgs cfgs' impacts).applied.lookup id = some a) ↔
      ∃ cfg, cfgs'.lookup id = some cfg := by
  have hfind := (twice_find cfgs cfgs' impacts).2 id
  rw [World.find] at hfind
  rw [← Option.isSome_iff_exists, ← Option.isSome_iff_exists]
  rw [← Option.isSome_map, hfind, Option.isSome_map]

omit [DecidableEq E] in
/-- What a BA has once impacts were added to a new one. -/
theorem attach_spec (id : ℕ) (cfg : BaConfig E) (impacts : List (ℕ × ImpactInfo)) :
    let b := ((World.newBa id cfg).attach impacts).ba
    b.config = cfg.config ∧ b.impacts = gather impacts ∧ Ba.Summed b :=
  attached_spec cfg.config impacts

omit [DecidableEq E] in
theorem validated_attach (id : ℕ) (cfg : BaConfig E) (impacts : List (ℕ × ImpactInfo)) :
    World.validated ((World.newBa id cfg).attach impacts) =
      (World.newBa id cfg).attach impacts := by
  have hvalid : { ((World.newBa id cfg).attach impacts).ba.config with valid := true } =
      ((World.newBa id cfg).attach impacts).ba.config := by
    rw [(attach_spec id cfg impacts).1]
    rfl
  rw [World.validated, hvalid]

theorem carries_self (fl : ℚ → ℚ) (c : Config) : Carries fl c.state_source c := by
  rw [Carries]
  cases c.state_source with
  | best => exact (by decide : StateSource.best ≠ .worst)
  | worst => rfl
  | ratio_number => exact .inl (.inl rfl)
  | ratio_percent => exact .inl (.inr rfl)
  | _ => trivial

omit [DecidableEq E] in
theorem Follows.refl (fl : ℚ → ℚ) (cfg : BaConfig E) : Follows fl cfg cfg :=
  ⟨rfl, rfl, rfl, carries_self fl cfg.config⟩

theorem state_congr (fl : ℚ → ℚ) (t : Totals) {b b' : Ba ℕ} (hconfig : b.config = b'.config)
    (himpacts : b.impacts = b'.impacts) : Ba.state fl t b = Ba.state fl t b' := by
  rw [Ba.state, Ba.state, hconfig, himpacts]

variable {fl : ℚ → ℚ}

/-- The states of a BA only depend on its configuration, its impacts and its totals. -/
theorem sameStates_of {b b' : Ba ℕ} (hconfig : b.config = b'.config)
    (himpacts : b.impacts = b'.impacts)
    (hhard : Ba.state fl b.hard b = Ba.state fl b'.hard b')
    (hsoft : Ba.state fl b.soft b = Ba.state fl b'.soft b') : SameStates fl b b' := by
  constructor
  · intro in_downtime
    rw [Ba.get_state_hard, Ba.get_state_hard, Ba.every_kpi_in_dt, Ba.every_kpi_in_dt, hhard,
      hconfig, himpacts]
  · exact hsoft

omit [DecidableEq E] in
/-- **An object that was modified**, against a new one. -/
theorem modified_states_iff (hfl : IsFloat fl) {id : ℕ} {old : BaConfig E}
    (hdt : old.dt_behaviour = cfg.dt_behaviour) :
    (∀ impacts, SameStates fl
      (World.validated (World.modified cfg ((World.newBa id old).attach impacts))).ba
      ((World.newBa id cfg).attach impacts).ba) ↔ Carries fl old.state_source cfg.config := by
  have hconfig : ∀ impacts, (World.validated
      (World.modified cfg ((World.newBa id old).attach impacts))).ba.config = cfg.config := by
    intro impacts
    show { ((World.newBa id old).attach impacts).ba.config with
      state_source := cfg.state_source
      level_warning := cfg.warning_level
      level_critical := cfg.critical_level
      valid := true } = cfg.config
    rw [(attach_spec id old impacts).1, BaConfig.config, BaConfig.config, hdt]
  constructor
  · intro hstates
    refine carries_of_state (c := old.config) hfl fun n b hb himpacts => ?_
    have hsoft := (hstates (criticals n)).2
    obtain ⟨hold, hgather, hsummed⟩ := attach_spec id old (criticals n)
    obtain ⟨hnew, hgather', hsummed'⟩ := attach_spec id cfg (criticals n)
    rw [Ba.get_state_soft, Ba.get_state_soft, hsummed'.soft, hnew, hgather'] at hsoft
    have hleft : (World.validated
        (World.modified cfg ((World.newBa id old).attach (criticals n)))).ba.soft =
        .total ImpactInfo.soft_impact old.config (gather (criticals n)).entries .init :=
      (hsummed.soft).trans (by rw [hold, hgather])
    rw [hleft] at hsoft
    rw [himpacts]
    exact (state_congr fl _ (hb.trans (hconfig _).symm) (himpacts.trans hgather.symm)).trans
      (hsoft.trans (state_congr fl _ (hnew.trans hb.symm) (hgather'.trans himpacts.symm)))
  · intro hcarries impacts
    obtain ⟨hold, hgather, hsummed⟩ := attach_spec id old impacts
    obtain ⟨hnew, hgather', hsummed'⟩ := attach_spec id cfg impacts
    have himpacts : (World.validated
        (World.modified cfg ((World.newBa id old).attach impacts))).ba.impacts =
          ((World.newBa id cfg).attach impacts).ba.impacts := hgather.trans hgather'.symm
    have hdt' : old.config.dt_behaviour = cfg.config.dt_behaviour := hdt
    refine sameStates_of ((hconfig impacts).trans hnew.symm) himpacts ?_ ?_
    · rw [state_congr fl _ ((hconfig impacts).trans hnew.symm) himpacts, hsummed'.hard]
      have hhard := hsummed.hard
      rw [hold, hgather, ← hgather'] at hhard
      rw [hnew]
      exact (congrArg (fun t => Ba.state fl t _) hhard).trans
        (state_of_carries ImpactInfo.hard_impact hfl hdt' hcarries hnew)
    · rw [state_congr fl _ ((hconfig impacts).trans hnew.symm) himpacts, hsummed'.soft]
      have hsoft := hsummed.soft
      rw [hold, hgather, ← hgather'] at hsoft
      rw [hnew]
      exact (congrArg (fun t => Ba.state fl t _) hsoft).trans
        (state_of_carries ImpactInfo.soft_impact hfl hdt' hcarries hnew)

/-- What the object of a BA has of its last configuration. -/
theorem object_refines (hfl : IsFloat fl)
    {impacts : ℕ → List (ℕ × ImpactInfo)} {id : ℕ}
    (hcfg : cfgs'.lookup id = some cfg)
    (hfollows : ∀ old, cfgs.lookup id = some old → Follows fl old cfg)
    {a : Applied (BaConfig E)} (ha : (twice cfgs cfgs' impacts).applied.lookup id = some a) :
    HasParameters cfg ((twice cfgs cfgs' impacts).objects a.obj) ∧
      SameStates fl ((twice cfgs cfgs' impacts).objects a.obj).ba
        ((World.newBa id cfg).attach (given cfgs impacts id)).ba := by
  rw [twice_object impacts hcfg ha, given]
  cases hold : cfgs.lookup id with
  | none =>
    rw [if_neg (lookup_eq_none.mp hold)]
    exact ⟨⟨rfl, rfl, rfl, rfl, rfl, rfl, rfl⟩, fun _ => rfl, rfl⟩
  | some old =>
    rw [if_pos (lookup_isSome.mp (by rw [hold]; rfl))]
    obtain ⟨hhost, hservice, hdt, hcarries⟩ := hfollows old hold
    obtain ⟨hconfig, -, -⟩ := attach_spec id old (impacts id)
    by_cases heq : old = cfg
    · subst heq
      dsimp only
      rw [if_pos rfl, validated_attach]
      refine ⟨⟨rfl, rfl, rfl, ?_, ?_, ?_, ?_⟩, fun _ => rfl, rfl⟩
      · rw [hconfig]
        rfl
      · rw [hconfig]
        rfl
      · rw [hconfig]
        rfl
      · rw [hconfig]
        rfl
    · dsimp only
      rw [if_neg heq]
      refine ⟨⟨hhost, hservice, rfl, rfl, rfl, rfl, ?_⟩,
        (modified_states_iff hfl hdt).mpr hcarries (impacts id)⟩
      show ((World.newBa id old).attach (impacts id)).ba.config.dt_behaviour = cfg.dt_behaviour
      rw [hconfig]
      exact hdt

/-- The other way round: a configuration whose object is what it should be. -/
theorem follows_of_refines (hfl : IsFloat fl) {id : ℕ}
    {old : BaConfig E} (hold : cfgs.lookup id = some old) (hcfg : cfgs'.lookup id = some cfg)
    (h : ∀ impacts, ∀ a, (twice cfgs cfgs' impacts).applied.lookup id = some a →
      HasParameters cfg ((twice cfgs cfgs' impacts).objects a.obj) ∧
        SameStates fl ((twice cfgs cfgs' impacts).objects a.obj).ba
          ((World.newBa id cfg).attach (given cfgs impacts id)).ba) : Follows fl old cfg := by
  by_cases heq : old = cfg
  · rw [heq]
    exact Follows.refl fl cfg
  have hobject : ∀ impacts : ℕ → List (ℕ × ImpactInfo),
      HasParameters cfg (World.validated
        (World.modified cfg ((World.newBa id old).attach (impacts id)))) ∧
      SameStates fl (World.validated
        (World.modified cfg ((World.newBa id old).attach (impacts id)))).ba
        ((World.newBa id cfg).attach (impacts id)).ba := by
    intro impacts
    obtain ⟨a, ha⟩ := (mem_twice cfgs impacts id).mpr ⟨cfg, hcfg⟩
    have hrefines := h impacts a ha
    rw [twice_object impacts hcfg ha, given, hold,
      if_pos (lookup_isSome.mp (by rw [hold]; rfl))] at hrefines
    dsimp only at hrefines
    rw [if_neg heq] at hrefines
    exact hrefines
  obtain ⟨hparameters, -⟩ := hobject fun _ => []
  have hdt : old.dt_behaviour = cfg.dt_behaviour := hparameters.dt_behaviour
  exact ⟨hparameters.host_id, hparameters.service_id, hdt,
    (modified_states_iff hfl hdt).mp fun impacts => (hobject fun _ => impacts).2⟩

/--
**The BAs are those of the last configuration as long as no BA changes its ids, its downtime
behaviour, or the source of its state** to one that needs what the old source did not keep.
-/
theorem apply_refines_iff {fl : ℚ → ℚ} (hfl : IsFloat fl) (cfgs cfgs' : Configs E) :
    (∀ impacts, Refines fl cfgs' (given cfgs impacts) (twice cfgs cfgs' impacts)) ↔
      ∀ id old cfg, cfgs.lookup id = some old → cfgs'.lookup id = some cfg →
        Follows fl old cfg := by
  constructor
  · intro h id old cfg hold hcfg
    exact follows_of_refines hfl hold hcfg fun impacts a ha =>
      ((h impacts).object id cfg hcfg a ha).2
  · intro h impacts
    have hinv := (twice_find cfgs cfgs' impacts).1
    constructor
    · intro id
      rw [← lookup_isSome, ← lookup_isSome, Option.isSome_iff_exists,
        Option.isSome_iff_exists]
      exact mem_twice cfgs impacts id
    · intro id cfg hcfg a ha
      exact ⟨hinv.unique id a ha,
        object_refines hfl hcfg (fun old hold => h id old cfg hold hcfg) ha⟩
    · intro ids p
      rw [hinv.booked]
      constructor
      · rintro ⟨id, a, ha, rfl, rfl⟩
        obtain ⟨cfg, hcfg⟩ := (mem_twice cfgs impacts id).mp ⟨a, ha⟩
        obtain ⟨hparameters, -⟩ := object_refines hfl hcfg (fun old hold => h id old cfg hold hcfg) ha
        exact ⟨id, cfg, a, hcfg, ha, rfl, by rw [hparameters.host_id, hparameters.service_id]⟩
      · rintro ⟨id, cfg, a, hcfg, ha, rfl, rfl⟩
        obtain ⟨hparameters, -⟩ := object_refines hfl hcfg (fun old hold => h id old cfg hold hcfg) ha
        exact ⟨id, a, ha, rfl, by rw [hparameters.host_id, hparameters.service_id]⟩

/-! ## Examples -/

/-- A BA whose state is the worst one of its KPIs. -/
def worstBa : BaConfig Unit := ⟨10, 20, "ba", .worst, 0, 0, (), .dt_ignore⟩

/-- It may be renamed and go over to impacts. -/
theorem apply_refines_renamed :
    Refines id (AList.insert 1 { worstBa with name := "renamed", state_source := .impact } ∅)
      (given (AList.insert 1 worstBa ∅) fun _ => criticals 2)
      (twice (AList.insert 1 worstBa ∅)
        (AList.insert 1 { worstBa with name := "renamed", state_source := .impact } ∅)
        fun _ => criticals 2) := by
  refine (apply_refines_iff ⟨monotone_id, rfl, rfl, rfl⟩ _ _).mpr ?_ _
  intro i old cfg hold hcfg
  by_cases hi : i = 1
  · subst hi
    rw [lookup_insert] at hold hcfg
    rw [← Option.some.inj hold, ← Option.some.inj hcfg]
    exact ⟨rfl, rfl, rfl, trivial⟩
  · rw [lookup_insert_ne hi] at hold
    cases hold

/-- **A BA that goes to another service is not followed**: its object stays at the old one. -/
theorem not_apply_refines :
    ¬Refines id (AList.insert 1 { worstBa with service_id := 21 } ∅)
      (given (AList.insert 1 worstBa ∅) fun _ => [])
      (twice (AList.insert 1 worstBa ∅) (AList.insert 1 { worstBa with service_id := 21 } ∅)
        fun _ => []) := by
  intro h
  have hcfg : (AList.insert 1 { worstBa with service_id := 21 } ∅ : Configs Unit).lookup 1 =
      some { worstBa with service_id := 21 } := lookup_insert _
  obtain ⟨a, ha⟩ := (mem_twice (AList.insert 1 worstBa ∅) (fun _ => []) 1).mpr ⟨_, hcfg⟩
  obtain ⟨-, hparameters, -⟩ := h.object 1 _ hcfg a ha
  have hservice := hparameters.service_id
  rw [twice_object (fun _ => []) hcfg ha, lookup_insert] at hservice
  exact absurd hservice (by decide)

end CentreonBroker.Bam.BaApplier
