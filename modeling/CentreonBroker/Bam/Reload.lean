import CentreonBroker.Bam.Applier

/-!
# The stages of a load

What the appliers of BAs, meta-services and expressions keep, and what deleting, creating
and resolving KPIs does to the objects and to their links.
-/

namespace CentreonBroker.Bam.Applier

open AList

namespace World

variable {V : Type}

/-! ## The other appliers -/

/-- What an applier of BAs, meta-services or expressions does to its objects. -/
structure Retargeted (kind : Kind) (old : AList (fun _ : ℕ => Applied V)) (keys : List ℕ)
    (next : ℕ) (new : AList (fun _ : ℕ => Applied V)) (next' : ℕ) : Prop where
  keys : ∀ id, id ∈ new ↔ id ∈ keys
  le : next ≤ next'
  obj : ∀ id a, new.lookup id = some a →
    a.obj < next' ∧ ((∃ b, old.lookup id = some b ∧ b.obj = a.obj) ∨ next ≤ a.obj)
  inj : ∀ id id' a a', new.lookup id = some a → new.lookup id' = some a' → a.obj = a'.obj →
    id = id'
  same : kind ≠ .bool_expression → ∀ id a b, new.lookup id = some a → old.lookup id = some b →
    a.obj = b.obj

section Targets

variable [DecidableEq V]

theorem applyTarget_cases (kind : Kind) (old : AList (fun _ : ℕ => Applied V)) (id : ℕ) (cfg : V)
    (next : ℕ) :
    (∃ b, old.lookup id = some b ∧ applyTarget kind old id cfg next = (⟨cfg, b.obj⟩, next)) ∨
      (applyTarget kind old id cfg next = (⟨cfg, next⟩, next + 1) ∧
        (kind ≠ .bool_expression → old.lookup id = none)) := by
  cases h : old.lookup id with
  | none => exact .inr ⟨by simp only [applyTarget, h], fun _ => rfl⟩
  | some b =>
    by_cases hk : keeps kind b.cfg cfg = true
    · exact .inl ⟨b, rfl, by simp only [applyTarget, h, hk, if_true]⟩
    · refine .inr ⟨by simp only [applyTarget, h, hk, Bool.false_eq_true, if_false], fun hkind => ?_⟩
      exact absurd (decide_eq_true (.inl hkind)) hk

theorem applyTargets_spec (kind : Kind) (old : AList (fun _ : ℕ => Applied V))
    {entries : List (Sigma fun _ : ℕ => V)} {next : ℕ} (hnodup : entries.NodupKeys)
    (hlt : ∀ id a, old.lookup id = some a → a.obj < next)
    (hinj : ∀ id id' a a', old.lookup id = some a → old.lookup id' = some a' → a.obj = a'.obj →
      id = id') :
    Retargeted kind old entries.keys next (applyTargets kind old entries next).1
      (applyTargets kind old entries next).2 := by
  induction entries with
  | nil =>
    have hnone : ∀ (id : ℕ) (a : Applied V), (∅ : AList (fun _ : ℕ => Applied V)).lookup id ≠ some a :=
      fun id a h => absurd (h.symm.trans (lookup_empty id)) nofun
    exact ⟨fun id => iff_of_false (notMem_empty id) List.not_mem_nil, Nat.le_refl _,
      fun id a h => absurd h (hnone id a), fun id _ a _ h => absurd h (hnone id a),
      fun _ id a _ h => absurd h (hnone id a)⟩
  | cons e entries ih =>
    obtain ⟨hnot, hnodup⟩ := List.nodupKeys_cons.mp hnodup
    obtain ⟨hkeys, hle, hobj, hinj', hsame⟩ := ih hnodup
    rw [applyTargets]
    set new := (applyTargets kind old entries next).1
    set next' := (applyTargets kind old entries next).2
    -- the new entry is an object of the old ones, or the next one
    obtain ⟨a, n, ha, hn, hwhere, hkeep⟩ : ∃ a n, applyTarget kind old e.1 e.2 next' = (a, n) ∧
        next' ≤ n ∧ ((∃ b, old.lookup e.1 = some b ∧ b.obj = a.obj) ∨ a.obj = next' ∧ n = next' + 1) ∧
        (kind ≠ .bool_expression → ∀ b, old.lookup e.1 = some b → a.obj = b.obj) := by
      rcases applyTarget_cases kind old e.1 e.2 next' with ⟨b, hb, h⟩ | ⟨h, hnone⟩
      · refine ⟨_, _, h, Nat.le_refl _, .inl ⟨b, hb, rfl⟩, fun _ b' hb' => ?_⟩
        have heq : b = b' := Option.some.inj (hb.symm.trans hb')
        show b.obj = b'.obj
        rw [heq]
      · refine ⟨_, _, h, Nat.le_succ _, .inr ⟨rfl, rfl⟩, fun hkind b hb => ?_⟩
        rw [hnone hkind] at hb
        cases hb
    show Retargeted kind old _ next (new.insert e.1 (applyTarget kind old e.1 e.2 next').1)
      (applyTarget kind old e.1 e.2 next').2
    rw [ha]
    have hcases : ∀ id b, (new.insert e.1 a).lookup id = some b →
        (id = e.1 ∧ b = a) ∨ (id ≠ e.1 ∧ new.lookup id = some b) := by
      intro id b h
      by_cases hid : id = e.1
      · rw [hid, lookup_insert] at h
        exact .inl ⟨hid, (Option.some.inj h).symm⟩
      · rw [lookup_insert_ne hid] at h
        exact .inr ⟨hid, h⟩
    -- no other entry has the object of the new one
    have hfresh : ∀ id b, id ≠ e.1 → new.lookup id = some b → b.obj ≠ a.obj := by
      intro id b hid hb heq
      obtain ⟨hblt, hbwhere⟩ := hobj id b hb
      rcases hwhere with ⟨o, ho, hoa⟩ | ⟨hoa, -⟩
      · rcases hbwhere with ⟨o', ho', ho'b⟩ | hge
        · exact hid (hinj id e.1 o' o ho' ho (by rw [ho'b, heq, hoa]))
        · have := hlt e.1 o ho
          omega
      · omega
    refine ⟨fun id => ?_, Nat.le_trans hle hn, fun id b h => ?_, fun id id' b b' h h' heq => ?_,
      fun hkind id b o h ho => ?_⟩
    · rw [mem_insert, hkeys, List.keys_cons, List.mem_cons]
    · rcases hcases id b h with ⟨rfl, rfl⟩ | ⟨hid, hb⟩
      · rcases hwhere with ⟨o, ho, hoa⟩ | ⟨hoa, hn'⟩
        · have hlto := hlt _ o ho
          exact ⟨by omega, .inl ⟨o, ho, hoa⟩⟩
        · exact ⟨by omega, .inr (by omega)⟩
      · obtain ⟨hblt, hbwhere⟩ := hobj id b hb
        exact ⟨by omega, hbwhere⟩
    · rcases hcases id b h with ⟨rfl, rfl⟩ | ⟨hid, hb⟩
      · rcases hcases id' b' h' with ⟨rfl, rfl⟩ | ⟨hid', hb'⟩
        · rfl
        · exact absurd heq.symm (hfresh id' b' hid' hb')
      · rcases hcases id' b' h' with ⟨rfl, rfl⟩ | ⟨hid', hb'⟩
        · exact absurd heq (hfresh id b hid hb)
        · exact hinj' id id' b b' hb hb' heq
    · rcases hcases id b h with ⟨rfl, rfl⟩ | ⟨hid, hb⟩
      · exact hkeep hkind o ho
      · exact hsame hkind id b o hb ho

end Targets

/-! ## What always holds -/

/-- The objects that are applied are different ones, and links are between KPIs and others. -/
structure Sound (w : World V) : Prop where
  target_lt : ∀ kind id a, (w.targets kind).lookup id = some a → a.obj < w.next
  target_inj : ∀ kind id id' a a', (w.targets kind).lookup id = some a →
    (w.targets kind).lookup id' = some a' → a.obj = a'.obj → id = id'
  kpi_lt : ∀ id a, w.kpis.lookup id = some a → a.obj < w.next
  kpi_inj : ∀ id id' a a', w.kpis.lookup id = some a → w.kpis.lookup id' = some a' →
    a.obj = a'.obj → id = id'
  /-- A parent of a KPI is a BA, and a parent of anything else is a KPI. -/
  edge : ∀ x y, y ∈ w.parents x →
    (∃ n m, x = .kpi n ∧ y = .target .ba m) ∨ ∃ kind n m, x = .target kind n ∧ y = .kpi m
  edge_lt : ∀ x y, y ∈ w.parents x → ∀ n, x = .kpi n ∨ y = .kpi n → n < w.next
  /-- An impact of a BA is that of a KPI which is applied. -/
  impacts : ∀ b ba m, (w.targets .ba).lookup b = some ba → m ∈ w.impacts ba.obj →
    ∃ id a, w.kpis.lookup id = some a ∧ a.obj = m ∧ a.cfg.ba_id = b
  blank : ∀ n, w.next ≤ n → w.impacts n = ∅
  /-- The book has each KPI of a service once, and no other. -/
  book : ∀ key m, w.book.count (key, m) ≤ 1 ∧ (0 < w.book.count (key, m) ↔
    ∃ id a, w.kpis.lookup id = some a ∧ a.obj = m ∧ a.cfg.is_service = true ∧
      (a.cfg.host_id, a.cfg.service_id) = key)

theorem Sound.init : Sound (init : World V) where
  target_lt _ id a h := absurd (h.symm.trans (lookup_empty id)) nofun
  target_inj _ id _ a _ h := absurd (h.symm.trans (lookup_empty id)) nofun
  kpi_lt id a h := absurd (h.symm.trans (lookup_empty id)) nofun
  kpi_inj id _ a _ h := absurd (h.symm.trans (lookup_empty id)) nofun
  edge _ _ h := absurd h List.not_mem_nil
  edge_lt _ _ h := absurd h List.not_mem_nil
  impacts b _ _ h := absurd (h.symm.trans (lookup_empty b)) nofun
  blank _ _ := rfl
  book key m := by
    refine ⟨Nat.zero_le 1, iff_of_false (Nat.lt_irrefl 0) ?_⟩
    intro ⟨id, a, h, _⟩
    exact absurd (h.symm.trans (lookup_empty id)) nofun

section Targets

variable [DecidableEq V]

/-- An applier of targets changes its own entries only. -/
theorem applyKind_spec (kind : Kind) {w : World V} (h : Sound w) (c : Config V) :
    Retargeted kind (w.targets kind) (c.targets kind).keys w.next
        ((applyKind kind c w).targets kind) (applyKind kind c w).next ∧
      (∀ kind', kind' ≠ kind → (applyKind kind c w).targets kind' = w.targets kind') := by
  have hspec := applyTargets_spec kind (w.targets kind) (c.targets kind).nodupKeys
    (h.target_lt kind) (h.target_inj kind)
  refine ⟨?_, fun kind' hne => Function.update_of_ne hne _ _⟩
  have hself : (applyKind kind c w).targets kind =
      (applyTargets kind (w.targets kind) (c.targets kind).entries w.next).1 :=
    Function.update_self _ _ _
  rw [hself]
  exact hspec

theorem Sound.applyKind {w : World V} (h : Sound w) (kind : Kind) (c : Config V) :
    Sound (applyKind kind c w) := by
  obtain ⟨hspec, hother⟩ := applyKind_spec kind h c
  have hle : w.next ≤ (World.applyKind kind c w).next := hspec.le
  refine ⟨fun kind' id a ha => ?_, fun kind' id id' a a' ha ha' heq => ?_,
    fun id a ha => Nat.lt_of_lt_of_le (h.kpi_lt id a ha) hle, h.kpi_inj, h.edge,
    fun x y hy n hn => Nat.lt_of_lt_of_le (h.edge_lt x y hy n hn) hle, fun b ba m hb hm => ?_,
    fun n hn => h.blank n (Nat.le_trans hle hn), h.book⟩
  · by_cases hk : kind' = kind
    · subst hk
      exact (hspec.obj id a ha).1
    · rw [hother kind' hk] at ha
      exact Nat.lt_of_lt_of_le (h.target_lt kind' id a ha) hle
  · by_cases hk : kind' = kind
    · subst hk
      exact hspec.inj id id' a a' ha ha' heq
    · rw [hother kind' hk] at ha ha'
      exact h.target_inj kind' id id' a a' ha ha' heq
  · by_cases hk : Kind.ba = kind
    · subst hk
      rcases (hspec.obj b ba hb).2 with ⟨old, hold, hobj⟩ | hge
      · exact h.impacts b old m hold (hobj ▸ hm)
      · -- a new BA has no impacts yet
        have hblank : w.impacts ba.obj = ∅ := h.blank ba.obj hge
        have hm : m ∈ w.impacts ba.obj := hm
        rw [hblank] at hm
        exact absurd hm (Finset.notMem_empty m)
    · rw [hother .ba hk] at hb
      exact h.impacts b ba m hb hm

end Targets

/-! ## Deleting -/

variable {id : ℕ}

theorem find_eq_some {w : World V} {kind : Kind} {n : ℕ} :
    w.find kind id = some n ↔ ∃ a, (w.targets kind).lookup id = some a ∧ a.obj = n :=
  Option.map_eq_some_iff

/-- What `_remove_kpi` does. -/
theorem removeKpi_frame (id : ℕ) (w : World V) :
    (removeKpi id w).next = w.next ∧ (removeKpi id w).targets = w.targets ∧
      (removeKpi id w).parents = w.parents ∧ (removeKpi id w).kpis = w.kpis.erase id := by
  cases hk : w.kpis.lookup id with
  | none =>
    have herase : w.kpis.erase id = w.kpis :=
      AList.ext (List.kerase_of_notMem_keys (lookup_eq_none.mp hk))
    simp only [removeKpi, hk, herase]
    exact ⟨trivial, trivial, trivial, trivial⟩
  | some a =>
    simp only [removeKpi, hk]
    by_cases hs : a.cfg.is_service = true <;> cases hb : w.find .ba a.cfg.ba_id <;>
      simp only [hs, if_true, Bool.false_eq_true, if_false, World.find] at hb ⊢ <;>
      simp only [hb, removeImpact] <;> exact ⟨trivial, trivial, trivial, trivial⟩

variable {a : Applied (KpiConfig V)}

/-- The book and the impacts once a KPI is removed. -/
theorem removeKpi_of_some {w : World V}
    (hk : w.kpis.lookup id = some a) :
    (removeKpi id w).book = (if a.cfg.is_service then
        w.book.erase ((a.cfg.host_id, a.cfg.service_id), a.obj) else w.book) ∧
      ∀ n, (removeKpi id w).impacts n =
        if w.find .ba a.cfg.ba_id = some n then (w.impacts n).erase a.obj else w.impacts n := by
  simp only [removeKpi, hk]
  by_cases hs : a.cfg.is_service = true <;> cases hb : w.find .ba a.cfg.ba_id <;>
    simp only [hs, if_true, Bool.false_eq_true, if_false, World.find] at hb ⊢ <;>
    simp only [hb, removeImpact]
  all_goals
    refine ⟨trivial, fun n => ?_⟩
    first
      | rfl
      | rename_i ba
        by_cases hn : n = ba
        · subst hn
          simp
        · rw [Function.update_of_ne hn, if_neg]
          intro heq
          exact hn (Option.some.inj heq).symm

theorem Sound.removeKpi {w : World V} (h : Sound w) (id : ℕ) : Sound (removeKpi id w) := by
  obtain ⟨hnext, htargets, hparents, hkpis⟩ := removeKpi_frame id w
  have hlookup : ∀ id' a', (World.removeKpi id w).kpis.lookup id' = some a' →
      id' ≠ id ∧ w.kpis.lookup id' = some a' := by
    intro id' a' h'
    rw [hkpis] at h'
    by_cases hid : id' = id
    · rw [hid, lookup_erase] at h'
      cases h'
    · exact ⟨hid, by rwa [lookup_erase_ne hid] at h'⟩
  have hback : ∀ id' a', id' ≠ id → w.kpis.lookup id' = some a' →
      (World.removeKpi id w).kpis.lookup id' = some a' := by
    intro id' a' hid h'
    rw [hkpis, lookup_erase_ne hid]
    exact h'
  cases hk : w.kpis.lookup id with
  | none =>
    have hsame : World.removeKpi id w = w := by simp only [World.removeKpi, hk]
    rw [hsame]
    exact h
  | some a =>
    obtain ⟨hbook, himpacts⟩ := removeKpi_of_some hk
    refine ⟨fun kind id a ha => ?_, fun kind => ?_, fun id' a' ha' => ?_,
      fun id₁ id₂ a₁ a₂ h₁ h₂ heq => ?_, fun x y hy => ?_, fun x y hy n hn => ?_,
      fun b ba m hb hm => ?_, fun n hn => ?_, fun key m => ?_⟩
    · rw [hnext]
      rw [htargets] at ha
      exact h.target_lt kind id a ha
    · rw [htargets]
      exact h.target_inj kind
    · rw [hnext]
      exact h.kpi_lt id' a' (hlookup id' a' ha').2
    · exact h.kpi_inj id₁ id₂ a₁ a₂ (hlookup id₁ a₁ h₁).2 (hlookup id₂ a₂ h₂).2 heq
    · rw [hparents] at hy
      exact h.edge x y hy
    · rw [hparents] at hy
      rw [hnext]
      exact h.edge_lt x y hy n hn
    · rw [htargets] at hb
      rw [himpacts] at hm
      have hm' : m ∈ w.impacts ba.obj := by
        split at hm
        · exact Finset.mem_of_mem_erase hm
        · exact hm
      obtain ⟨id', a', ha', hobj, hba⟩ := h.impacts b ba m hb hm'
      refine ⟨id', a', hback id' a' ?_ ha', hobj, hba⟩
      rintro rfl
      -- the impact of the KPI that goes is gone too
      obtain rfl : a = a' := Option.some.inj (hk.symm.trans ha')
      have hfind : w.find .ba a.cfg.ba_id = some ba.obj := find_eq_some.mpr ⟨ba, hba ▸ hb, rfl⟩
      rw [if_pos hfind] at hm
      rw [hobj] at hm
      exact Finset.notMem_erase m _ hm
    · rw [himpacts, h.blank n (by rwa [hnext] at hn)]
      split
      · exact Finset.erase_empty _
      · rfl
    · obtain ⟨hle, hiff⟩ := h.book key m
      rw [hbook]
      by_cases hs : a.cfg.is_service = true
      · rw [if_pos hs]
        by_cases hkey : (key, m) = ((a.cfg.host_id, a.cfg.service_id), a.obj)
        · rw [hkey, List.count_erase_self, ← hkey]
          refine ⟨by omega, iff_of_false (by omega) ?_⟩
          intro ⟨id', a', ha', hobj, _, _⟩
          obtain ⟨hne, ha'⟩ := hlookup id' a' ha'
          exact hne (h.kpi_inj id' id a' a ha' hk (hobj.trans (congrArg Prod.snd hkey)))
        · rw [List.count_erase_of_ne hkey, hiff]
          refine ⟨hle, fun ⟨id', a', ha', hobj, hserv, hkey'⟩ => ?_, fun ⟨id', a', ha', hrest⟩ =>
            ⟨id', a', (hlookup id' a' ha').2, hrest⟩⟩
          refine ⟨id', a', hback id' a' ?_ ha', hobj, hserv, hkey'⟩
          rintro rfl
          obtain rfl : a = a' := Option.some.inj (hk.symm.trans ha')
          exact hkey (by rw [hobj, hkey'])
      · rw [if_neg hs, hiff]
        refine ⟨hle, fun ⟨id', a', ha', hobj, hserv, hkey'⟩ => ?_, fun ⟨id', a', ha', hrest⟩ =>
          ⟨id', a', (hlookup id' a' ha').2, hrest⟩⟩
        refine ⟨id', a', hback id' a' ?_ ha', hobj, hserv, hkey'⟩
        rintro rfl
        obtain rfl : a = a' := Option.some.inj (hk.symm.trans ha')
        exact hs hserv

/-- What deleting a list of KPIs does. -/
theorem removeKpis_spec (l : List (Sigma fun _ : ℕ => Applied (KpiConfig V))) {w : World V}
    (h : Sound w) :
    Sound (l.foldl (fun w e => World.removeKpi e.1 w) w) ∧
      (l.foldl (fun w e => World.removeKpi e.1 w) w).next = w.next ∧
      (l.foldl (fun w e => World.removeKpi e.1 w) w).targets = w.targets ∧
      (l.foldl (fun w e => World.removeKpi e.1 w) w).parents = w.parents ∧
      ∀ id, (l.foldl (fun w e => World.removeKpi e.1 w) w).kpis.lookup id =
        if id ∈ l.keys then none else w.kpis.lookup id := by
  induction l generalizing w with
  | nil => exact ⟨h, rfl, rfl, rfl, fun id => (if_neg List.not_mem_nil).symm⟩
  | cons e l ih =>
    obtain ⟨hnext, htargets, hparents, hkpis⟩ := removeKpi_frame e.1 w
    obtain ⟨hsound, hnext', htargets', hparents', hkpis'⟩ := ih (h.removeKpi e.1)
    refine ⟨hsound, hnext'.trans hnext, htargets'.trans htargets, hparents'.trans hparents,
      fun id => ?_⟩
    rw [List.foldl_cons, hkpis', hkpis, List.keys_cons]
    by_cases hid : id = e.1
    · subst hid
      rw [lookup_erase, ite_self, if_pos List.mem_cons_self]
    · rw [lookup_erase_ne hid]
      simp only [List.mem_cons, hid, false_or]

/-! ## Creating -/

/-- Whether a KPI is of a type that can be created. -/
def Typed (cfg : KpiConfig V) : Prop :=
  cfg.is_service = true ∨ cfg.is_ba = true ∨ cfg.is_meta = true ∨ cfg.is_boolexp = true

/-- A world with one more KPI. -/
def created (id : ℕ) (cfg : KpiConfig V) (w : World V) : World V :=
  { w with
    next := w.next + 1
    kpis := w.kpis.insert id ⟨cfg, w.next⟩
    book := if cfg.is_service then w.book ++ [((cfg.host_id, cfg.service_id), w.next)]
      else w.book }

variable {cfg : KpiConfig V}

theorem createKpi_of_typed {activated : ℕ → ℕ → Bool} (w : World V)
    (htyped : Typed cfg) :
    createKpi activated id cfg w =
      if activated cfg.host_id cfg.service_id then created id cfg w else w := by
  by_cases hact : activated cfg.host_id cfg.service_id = true
  · simp only [createKpi, hact, Bool.not_true, Bool.false_eq_true, if_false, if_true]
    by_cases hs : cfg.is_service = true
    · simp only [newKpi, created, hs, if_true]
    · have hother : cfg.is_ba = true ∨ cfg.is_meta = true ∨ cfg.is_boolexp = true :=
        htyped.resolve_left hs
      simp only [newKpi, created, hs, hother, Bool.false_eq_true, if_false, if_true]
  · simp only [createKpi, hact, Bool.not_false, if_true, Bool.false_eq_true, if_false]

theorem Sound.created {w : World V} (h : Sound w) (cfg : KpiConfig V)
    (hnew : w.kpis.lookup id = none) : Sound (created id cfg w) := by
  have hcases : ∀ id' a, (World.created id cfg w).kpis.lookup id' = some a →
      (id' = id ∧ a = ⟨cfg, w.next⟩) ∨ (id' ≠ id ∧ w.kpis.lookup id' = some a) := by
    intro id' a ha
    by_cases hid : id' = id
    · rw [hid] at ha
      have hself := lookup_insert w.kpis (a := id) (b := (⟨cfg, w.next⟩ : Applied (KpiConfig V)))
      exact .inl ⟨hid, (Option.some.inj (hself.symm.trans ha)).symm⟩
    · exact .inr ⟨hid, (lookup_insert_ne hid).symm.trans ha⟩
  have hself : (World.created id cfg w).kpis.lookup id = some ⟨cfg, w.next⟩ := lookup_insert _
  have hold : ∀ id' a, w.kpis.lookup id' = some a →
      (World.created id cfg w).kpis.lookup id' = some a := by
    intro id' a ha
    have hid : id' ≠ id := by
      rintro rfl
      rw [hnew] at ha
      cases ha
    exact (lookup_insert_ne hid).trans ha
  refine ⟨fun kind id' a ha => Nat.lt_succ_of_lt (h.target_lt kind id' a ha), h.target_inj,
    fun id' a ha => ?_, fun id₁ id₂ a₁ a₂ h₁ h₂ heq => ?_, h.edge,
    fun x y hy n hn => Nat.lt_succ_of_lt (h.edge_lt x y hy n hn), fun b ba m hb hm => ?_,
    fun n hn => h.blank n (Nat.le_of_succ_le hn), fun key m => ?_⟩
  · rcases hcases id' a ha with ⟨-, rfl⟩ | ⟨-, ha⟩
    · exact Nat.lt_succ_self w.next
    · exact Nat.lt_succ_of_lt (h.kpi_lt id' a ha)
  · rcases hcases id₁ a₁ h₁ with ⟨rfl, rfl⟩ | ⟨-, h₁⟩
    · rcases hcases id₂ a₂ h₂ with ⟨rfl, rfl⟩ | ⟨-, h₂⟩
      · rfl
      · have hlt := h.kpi_lt id₂ a₂ h₂
        exact absurd heq.symm (Nat.ne_of_lt hlt)
    · have hlt := h.kpi_lt id₁ a₁ h₁
      rcases hcases id₂ a₂ h₂ with ⟨-, rfl⟩ | ⟨-, h₂⟩
      · exact absurd heq (Nat.ne_of_lt hlt)
      · exact h.kpi_inj id₁ id₂ a₁ a₂ h₁ h₂ heq
  · obtain ⟨id', a, ha, hobj, hba⟩ := h.impacts b ba m hb hm
    exact ⟨id', a, hold id' a ha, hobj, hba⟩
  · obtain ⟨hle, hiff⟩ := h.book key m
    -- the book has nothing under a number that was never given
    have hunused : w.book.count (key, w.next) = 0 := by
      obtain ⟨-, hiff⟩ := h.book key w.next
      by_contra hne
      obtain ⟨id', a, ha, hobj, -⟩ := hiff.mp (Nat.pos_of_ne_zero hne)
      have hlt := h.kpi_lt id' a ha
      omega
    have hcount : (World.created id cfg w).book.count (key, m) = w.book.count (key, m) +
        if cfg.is_service = true ∧ (cfg.host_id, cfg.service_id) = key ∧ w.next = m then 1
        else 0 := by
      by_cases hs : cfg.is_service = true
      · simp only [World.created, hs, if_true, List.count_append, List.count_singleton, beq_iff_eq,
          Prod.mk.injEq, true_and]
      · simp only [World.created, hs, Bool.false_eq_true, if_false, false_and, Nat.add_zero]
    rw [hcount]
    by_cases hm : w.next = m
    · subst hm
      rw [hunused, Nat.zero_add]
      refine ⟨by split <;> omega, fun hpos => ?_, fun ⟨id', a, ha, hobj, hserv, hkey⟩ => ?_⟩
      · by_cases hs : cfg.is_service = true ∧ (cfg.host_id, cfg.service_id) = key ∧ w.next = w.next
        · exact ⟨id, _, hself, rfl, hs.1, hs.2.1⟩
        · rw [if_neg hs] at hpos
          exact absurd hpos (Nat.lt_irrefl 0)
      · rcases hcases id' a ha with ⟨-, rfl⟩ | ⟨-, ha⟩
        · rw [if_pos ⟨hserv, hkey, rfl⟩]
          exact Nat.one_pos
        · have hlt := h.kpi_lt id' a ha
          omega
    · rw [if_neg fun hand => hm hand.2.2, Nat.add_zero, hiff]
      refine ⟨hle, fun ⟨id', a, ha, hrest⟩ => ⟨id', a, hold id' a ha, hrest⟩,
        fun ⟨id', a, ha, hobj, hrest⟩ => ?_⟩
      rcases hcases id' a ha with ⟨-, rfl⟩ | ⟨-, ha⟩
      · exact absurd hobj hm
      · exact ⟨id', a, ha, hobj, hrest⟩

/-- What creating some KPIs does: none that was there is touched, and a new one has a new object. -/
structure Created (activated : ℕ → ℕ → Bool) (w : World V)
    (l : List (Sigma fun _ : ℕ => KpiConfig V)) (w' : World V) : Prop where
  sound : Sound w'
  le : w.next ≤ w'.next
  targets : w'.targets = w.targets
  parents : w'.parents = w.parents
  old : ∀ id, id ∉ l.keys → w'.kpis.lookup id = w.kpis.lookup id
  off : ∀ e ∈ l, activated e.2.host_id e.2.service_id = false → w'.kpis.lookup e.1 = none
  on : ∀ e ∈ l, activated e.2.host_id e.2.service_id = true →
    ∃ n, w.next ≤ n ∧ w'.kpis.lookup e.1 = some ⟨e.2, n⟩

theorem createKpis_spec (activated : ℕ → ℕ → Bool) {l : List (Sigma fun _ : ℕ => KpiConfig V)}
    (hnodup : l.NodupKeys) (htyped : ∀ e ∈ l, Typed e.2) {w : World V} (h : Sound w)
    (hnew : ∀ e ∈ l, w.kpis.lookup e.1 = none) :
    Created activated w l (l.foldl (fun w e => createKpi activated e.1 e.2 w) w) := by
  induction l generalizing w with
  | nil =>
    exact ⟨h, Nat.le_refl _, rfl, rfl, fun _ _ => rfl, fun e he => absurd he List.not_mem_nil,
      fun e he => absurd he List.not_mem_nil⟩
  | cons e l ih =>
    obtain ⟨hnot, hnodup⟩ := List.nodupKeys_cons.mp hnodup
    have hne : ∀ e' ∈ l, e'.1 ≠ e.1 := fun e' he' heq => hnot (heq ▸ List.mem_keys_of_mem he')
    have htyped' : ∀ e' ∈ l, Typed e'.2 := fun e' he' => htyped e' (List.mem_cons_of_mem e he')
    have hself := hnew e List.mem_cons_self
    rw [List.foldl_cons, createKpi_of_typed w (htyped e List.mem_cons_self)]
    by_cases hact : activated e.2.host_id e.2.service_id = true
    · rw [if_pos hact]
      have hlookup : ∀ id, id ≠ e.1 → (World.created e.1 e.2 w).kpis.lookup id = w.kpis.lookup id :=
        fun id hid => lookup_insert_ne hid
      have hnew' : ∀ e' ∈ l, (World.created e.1 e.2 w).kpis.lookup e'.1 = none :=
        fun e' he' => (hlookup e'.1 (hne e' he')).trans (hnew e' (List.mem_cons_of_mem e he'))
      have hc := ih hnodup htyped' (h.created e.2 hself) hnew'
      refine ⟨hc.sound, Nat.le_of_succ_le hc.le, hc.targets, hc.parents, fun id hid => ?_,
        fun e' he' hoff => ?_, fun e' he' hon => ?_⟩
      · rw [List.keys_cons, List.mem_cons, not_or] at hid
        exact (hc.old id hid.2).trans (hlookup id hid.1)
      · rcases List.mem_cons.mp he' with rfl | he'
        · rw [hact] at hoff
          cases hoff
        · exact hc.off e' he' hoff
      · rcases List.mem_cons.mp he' with rfl | he'
        · exact ⟨w.next, Nat.le_refl _, (hc.old e'.1 hnot).trans (lookup_insert _)⟩
        · obtain ⟨n, hn, hl⟩ := hc.on e' he' hon
          exact ⟨n, Nat.le_of_succ_le hn, hl⟩
    · rw [if_neg hact]
      have hc := ih hnodup htyped' h fun e' he' => hnew e' (List.mem_cons_of_mem e he')
      refine ⟨hc.sound, hc.le, hc.targets, hc.parents, fun id hid => ?_, fun e' he' hoff => ?_,
        fun e' he' hon => ?_⟩
      · rw [List.keys_cons, List.mem_cons, not_or] at hid
        exact hc.old id hid.2
      · rcases List.mem_cons.mp he' with rfl | he'
        · exact (hc.old e'.1 hnot).trans hself
        · exact hc.off e' he' hoff
      · rcases List.mem_cons.mp he' with rfl | he'
        · exact absurd hon hact
        · exact hc.on e' he' hon

/-! ## Resolving -/

/-- The links that resolving a KPI adds, each from what is watched to what watches it. -/
def linksOf (w : World V) (a : Applied (KpiConfig V)) : List (Obj × Obj) :=
  ((a.cfg.source.bind fun s => (w.find s.1 s.2).map (Obj.target s.1)).toList.map
      fun source => (source, .kpi a.obj)) ++
    (w.find .ba a.cfg.ba_id).toList.map fun ba => (.kpi a.obj, .target .ba ba)

/-- The BA and the source of a KPI are there. -/
structure Findable (w : World V) (cfg : KpiConfig V) : Prop where
  ba : ∃ n, w.find .ba cfg.ba_id = some n
  source : ∀ kind id, cfg.source = some (kind, id) → ∃ n, w.find kind id = some n

/-- What resolving some KPIs adds. -/
structure Resolved (w : World V) (todo : List (Applied (KpiConfig V))) (w' : World V) : Prop where
  next : w'.next = w.next
  targets : w'.targets = w.targets
  kpis : w'.kpis = w.kpis
  book : w'.book = w.book
  parents : ∀ x y, (w'.parents x).count y =
    (w.parents x).count y + (todo.flatMap (linksOf w)).count (x, y)
  impacts : ∀ n m, m ∈ w'.impacts n ↔
    m ∈ w.impacts n ∨ ∃ a ∈ todo, w.find .ba a.cfg.ba_id = some n ∧ a.obj = m

variable {w' : World V}

theorem find_congr {w : World V} (h : w'.targets = w.targets) (kind : Kind) (id : ℕ) :
    w'.find kind id = w.find kind id := by
  rw [find, find, h]

theorem linksOf_congr {w : World V} (h : w'.targets = w.targets) : linksOf w' = linksOf w := by
  funext a
  simp only [linksOf, find_congr h]

theorem Findable.congr {w : World V} (h : w'.targets = w.targets)
    (hf : Findable w cfg) : Findable w' cfg :=
  ⟨by rw [find_congr h]; exact hf.ba, fun kind id => by rw [find_congr h]; exact hf.source kind id⟩

theorem Resolved.trans {w w'' : World V} {l l' : List (Applied (KpiConfig V))}
    (h : Resolved w l w') (h' : Resolved w' l' w'') : Resolved w (l ++ l') w'' := by
  refine ⟨h'.next.trans h.next, h'.targets.trans h.targets, h'.kpis.trans h.kpis,
    h'.book.trans h.book, fun x y => ?_, fun n m => ?_⟩
  · rw [h'.parents, h.parents, linksOf_congr h.targets, List.flatMap_append, List.count_append,
      Nat.add_assoc]
  · rw [h'.impacts, h.impacts, or_assoc]
    simp only [find_congr h.targets, List.mem_append, or_and_right, exists_or]

theorem count_addParent (w : World V) (child parent x y : Obj) :
    ((addParent child parent w).parents x).count y =
      (w.parents x).count y + [(child, parent)].count (x, y) := by
  by_cases hx : x = child
  · subst hx
    simp only [addParent, Function.update_self, List.count_append, List.count_singleton, beq_iff_eq,
      Prod.mk.injEq, true_and]
  · simp only [addParent, Function.update_of_ne hx, List.count_singleton, beq_iff_eq, Prod.mk.injEq,
      Ne.symm hx, false_and, if_false, Nat.add_zero]

theorem resolveKpi_spec {w : World V} (h : Findable w cfg) (kpi : ℕ) :
    ∃ w', resolveKpi cfg kpi w = some w' ∧ Resolved w [⟨cfg, kpi⟩] w' := by
  obtain ⟨ba, hba⟩ := h.ba
  -- what the BA has once the KPI is one of its impacts
  have himpacts : ∀ n m, m ∈ Function.update w.impacts ba (insert kpi (w.impacts ba)) n ↔
      m ∈ w.impacts n ∨ ∃ a ∈ [(⟨cfg, kpi⟩ : Applied (KpiConfig V))],
        w.find .ba a.cfg.ba_id = some n ∧ a.obj = m := by
    intro n m
    simp only [List.mem_singleton, exists_eq_left, hba, Option.some.injEq]
    by_cases hn : n = ba
    · subst hn
      simp only [Function.update_self, Finset.mem_insert, true_and]
      exact ⟨fun h => h.symm.imp_right Eq.symm, fun h => h.symm.imp_left Eq.symm⟩
    · simp only [Function.update_of_ne hn, Ne.symm hn, false_and, or_false]
  cases hs : cfg.source with
  | none =>
    have heq : resolveKpi cfg kpi w =
        some (addParent (.kpi kpi) (.target .ba ba) (addImpact ba kpi w)) := by
      simp only [resolveKpi, hba, hs, Option.map_some]
    refine ⟨_, heq, rfl, rfl, rfl, rfl, fun x y => ?_, himpacts⟩
    rw [count_addParent]
    simp only [addImpact, linksOf, hba, hs, List.flatMap_cons, List.flatMap_nil, List.append_nil,
      Option.bind_none, Option.toList_none, List.map_nil, List.nil_append, Option.toList_some,
      List.map_cons]
  | some source =>
    obtain ⟨n, hn⟩ := h.source source.1 source.2 hs
    have heq : resolveKpi cfg kpi w = some (addParent (.kpi kpi) (.target .ba ba) (addImpact ba kpi
        (addParent (.target source.1 n) (.kpi kpi)
          { w with link := Function.update w.link kpi (some (.target source.1 n)) }))) := by
      simp only [resolveKpi, hba, hs, hn, Option.map_some]
    refine ⟨_, heq, rfl, rfl, rfl, rfl, fun x y => ?_, himpacts⟩
    rw [count_addParent]
    simp only [addImpact]
    rw [count_addParent, Nat.add_assoc, ← List.count_append]
    simp only [linksOf, hba, hs, hn, List.flatMap_cons, List.flatMap_nil, List.append_nil,
      Option.bind_some, Option.map_some, Option.toList_some, List.map_cons, List.map_nil]

theorem resolvePass_spec {l : List (Sigma fun _ : ℕ => Applied (KpiConfig V))} {w : World V}
    (h : ∀ e ∈ l, Findable w e.2.cfg) :
    ∃ w', resolvePass l w = (w', none) ∧ Resolved w (l.map Sigma.snd) w' := by
  induction l generalizing w with
  | nil =>
    refine ⟨w, rfl, rfl, rfl, rfl, rfl, fun _ _ => rfl, fun n m => ?_⟩
    simp
  | cons e l ih =>
    obtain ⟨w₁, heq, hres⟩ := resolveKpi_spec (h e List.mem_cons_self) e.2.obj
    obtain ⟨w₂, heq', hres'⟩ := @ih w₁ fun e' he' =>
      (h e' (List.mem_cons_of_mem e he')).congr hres.targets
    refine ⟨w₂, ?_, hres.trans hres'⟩
    rw [resolvePass, heq]
    exact heq'

theorem resolve_spec {w : World V} (h : ∀ id a, w.kpis.lookup id = some a → Findable w a.cfg)
    (turns : ℕ) : Resolved w (w.kpis.entries.map Sigma.snd) (resolve (turns + 1) w) := by
  obtain ⟨w', heq, hres⟩ := @resolvePass_spec V w.kpis.entries w fun e he =>
    h e.1 e.2 (mem_lookup_iff.mpr he)
  rw [resolve, heq]
  exact hres

theorem mem_linksOf {w : World V} {x y : Obj} :
    (x, y) ∈ linksOf w a ↔
      (∃ kind id n, a.cfg.source = some (kind, id) ∧ w.find kind id = some n ∧
        x = .target kind n ∧ y = .kpi a.obj) ∨
      ∃ n, w.find .ba a.cfg.ba_id = some n ∧ x = .kpi a.obj ∧ y = .target .ba n := by
  simp only [linksOf, List.mem_append, List.mem_map, Option.mem_toList, Option.bind_eq_some_iff,
    Option.map_eq_some_iff, Prod.mk.injEq, Prod.exists]
  refine or_congr ⟨?_, ?_⟩ ⟨?_, ?_⟩
  · rintro ⟨o, ⟨kind, id, hs, n, hn, rfl⟩, rfl, rfl⟩
    exact ⟨kind, id, n, hs, hn, rfl, rfl⟩
  · rintro ⟨kind, id, n, hs, hn, rfl, rfl⟩
    exact ⟨_, ⟨kind, id, hs, n, hn, rfl⟩, rfl, rfl⟩
  · rintro ⟨n, hn, rfl, rfl⟩
    exact ⟨n, hn, rfl, rfl⟩
  · rintro ⟨n, hn, rfl, rfl⟩
    exact ⟨n, hn, rfl, rfl⟩

theorem Resolved.mem_parents {w : World V} {todo : List (Applied (KpiConfig V))}
    (h : Resolved w todo w') {x y : Obj} :
    y ∈ w'.parents x ↔ y ∈ w.parents x ∨ ∃ a ∈ todo, (x, y) ∈ linksOf w a := by
  rw [← List.count_pos_iff, h.parents, Nat.add_pos_iff_pos_or_pos, List.count_pos_iff,
    List.count_pos_iff, List.mem_flatMap]

theorem mem_applied {w : World V} :
    a ∈ w.kpis.entries.map Sigma.snd ↔ ∃ id, w.kpis.lookup id = some a := by
  simp only [List.mem_map, Sigma.exists, exists_eq_right]
  exact exists_congr fun id => mem_lookup_iff.symm

theorem Sound.resolved {w : World V} (h : Sound w)
    (hres : Resolved w (w.kpis.entries.map Sigma.snd) w') : Sound w' := by
  have hlt : ∀ kind id n, w.find kind id = some n → n < w.next := by
    intro kind id n hn
    obtain ⟨a, ha, rfl⟩ := find_eq_some.mp hn
    exact h.target_lt kind id a ha
  refine ⟨?_, ?_, ?_, ?_, fun x y hy => ?_, fun x y hy n hn => ?_, fun b ba m hb hm => ?_,
    fun n hn => ?_, ?_⟩
  · rw [hres.targets, hres.next]
    exact h.target_lt
  · rw [hres.targets]
    exact h.target_inj
  · rw [hres.kpis, hres.next]
    exact h.kpi_lt
  · rw [hres.kpis]
    exact h.kpi_inj
  · rcases hres.mem_parents.mp hy with hy | ⟨a, -, hlink⟩
    · exact h.edge x y hy
    · rcases mem_linksOf.mp hlink with ⟨kind, id, n, -, -, rfl, rfl⟩ | ⟨n, -, rfl, rfl⟩
      · exact .inr ⟨kind, n, a.obj, rfl, rfl⟩
      · exact .inl ⟨a.obj, n, rfl, rfl⟩
  · rw [hres.next]
    rcases hres.mem_parents.mp hy with hy | ⟨a, ha, hlink⟩
    · exact h.edge_lt x y hy n hn
    · obtain ⟨id, ha⟩ := mem_applied.mp ha
      have hobj : n = a.obj := by
        rcases mem_linksOf.mp hlink with ⟨kind, id, m, -, -, rfl, rfl⟩ | ⟨m, -, rfl, rfl⟩
        · rcases hn with hn | hn
          · cases hn
          · exact (Obj.kpi.inj hn).symm
        · rcases hn with hn | hn
          · exact (Obj.kpi.inj hn).symm
          · cases hn
      rw [hobj]
      exact h.kpi_lt id a ha
  · rw [hres.targets] at hb
    rw [hres.kpis]
    rcases (hres.impacts ba.obj m).mp hm with hm | ⟨a, ha, hfind, hobj⟩
    · exact h.impacts b ba m hb hm
    · obtain ⟨id, ha⟩ := mem_applied.mp ha
      obtain ⟨ba', hba', heq⟩ := find_eq_some.mp hfind
      exact ⟨id, a, ha, hobj, h.target_inj .ba _ _ ba' ba hba' hb heq⟩
  · rw [hres.next] at hn
    refine Finset.eq_empty_of_forall_notMem fun m hm => ?_
    rcases (hres.impacts n m).mp hm with hm | ⟨a, -, hfind, -⟩
    · rw [h.blank n hn] at hm
      exact Finset.notMem_empty m hm
    · have := hlt _ _ _ hfind
      omega
  · rw [hres.kpis, hres.book]
    exact h.book

end World

end CentreonBroker.Bam.Applier
