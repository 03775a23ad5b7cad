import CentreonBroker.Bam.Reload
import CentreonBroker.Lib.Entries

/-!
# Loading a configuration again

The dependency graph between the objects, by the names they have in the configuration, and
how often an update of one reaches another. The KPI applier links all its KPIs each time,
and removes no link: a KPI that it keeps gets its BA as a parent once more.
-/

namespace CentreonBroker.Bam.Applier

open World

/-! ## The graph -/

/-- An object, by its id in the configuration. -/
inductive Name where
  | target (kind : Kind) (id : ℕ)
  | kpi (id : ℕ)
  deriving DecidableEq, Repr

/-- What depends on what. -/
@[ext]
structure Graph where
  present : Name → Bool
  /-- How often an update of the first reaches the second. -/
  times : Name → Name → ℕ
  /-- The KPIs that a BA has impacts of. -/
  impacts : ℕ → ℕ → Bool
  /-- How often a status of a service reaches a KPI. -/
  listens : ℕ × ℕ → ℕ → ℕ

section Graph

variable {V : Type}

/-- The object of a name, if an applier has it. -/
def objOf (w : World V) : Name → Option Obj
  | .target kind id => (w.find kind id).map (.target kind)
  | .kpi id => (w.kpis.lookup id).map fun a => .kpi a.obj

/-- The graph of the objects. A parent that is gone is skipped. -/
def graph (w : World V) : Graph where
  present x := (objOf w x).isSome
  times x y := match objOf w x, objOf w y with
    | some a, some b => (w.parents a).count b
    | _, _ => 0
  impacts b k := match w.find .ba b, w.kpis.lookup k with
    | some n, some a => a.obj ∈ w.impacts n
    | _, _ => false
  listens key k := match w.kpis.lookup k with
    | some a => w.book.count (key, a.obj)
    | none => 0

/-- The KPIs of a configuration that are not ignored. -/
def active (c : Config V) (id : ℕ) : Option (KpiConfig V) :=
  (c.kpis.lookup id).filter fun cfg => c.activated cfg.host_id cfg.service_id

/-- The graph of a configuration. -/
def graphOf (c : Config V) : Graph where
  present
    | .target kind id => id ∈ c.targets kind
    | .kpi id => (active c id).isSome
  times
    | .kpi k, .target .ba b => if (active c k).any (·.ba_id = b) then 1 else 0
    | .target kind t, .kpi k => if (active c k).any (·.source = some (kind, t)) then 1 else 0
    | _, _ => 0
  impacts b k := (active c k).any (·.ba_id = b)
  listens key k :=
    if (active c k).any fun cfg => cfg.is_service && (cfg.host_id, cfg.service_id) = key then 1
    else 0

/-- What a configuration has is there, and a KPI is of one type. -/
structure Valid (c : Config V) : Prop where
  ba : ∀ id cfg, c.kpis.lookup id = some cfg → cfg.ba_id ∈ c.targets .ba
  source : ∀ id cfg, c.kpis.lookup id = some cfg →
    (cfg.is_service = true ∧ cfg.source = none) ∨
      (cfg.is_service = false ∧ ∃ kind t, cfg.source = some (kind, t) ∧ t ∈ c.targets kind)

/-- A KPI that the applier keeps: the configuration has it as it is. -/
def NoneKept [DecidableEq V] (c : Config V) (w : World V) : Prop :=
  ∀ id a, w.kpis.lookup id = some a → c.kpis.lookup id ≠ some a.cfg

end Graph

section Links

variable {V : Type}

theorem Valid.typed {c : Config V} (h : Valid c) {id : ℕ} {cfg : KpiConfig V}
    (hcfg : c.kpis.lookup id = some cfg) : Typed cfg := by
  rcases h.source id cfg hcfg with ⟨hs, -⟩ | ⟨-, kind, t, hsource, -⟩
  · exact .inl hs
  · right
    by_contra hnone
    simp only [not_or] at hnone
    simp only [KpiConfig.source, hnone.1, hnone.2.1, hnone.2.2, Bool.false_eq_true, if_false] at hsource
    cases hsource

variable {w : World V}

/-- The BA and the source of a KPI are there, if what the configuration has is. -/
theorem Valid.findable {c : Config V} (h : Valid c)
    (htargets : ∀ kind id, id ∈ w.targets kind ↔ id ∈ c.targets kind) {k : ℕ} {cfg : KpiConfig V}
    (hcfg : c.kpis.lookup k = some cfg) : Findable w cfg := by
  have hsome : ∀ kind id, id ∈ c.targets kind → ∃ n, w.find kind id = some n := by
    intro kind id hid
    obtain ⟨b, hb⟩ := Option.isSome_iff_exists.mp
      (AList.lookup_isSome.mpr ((htargets kind id).mpr hid))
    exact ⟨b.obj, find_eq_some.mpr ⟨b, hb, rfl⟩⟩
  refine ⟨hsome .ba _ (h.ba k cfg hcfg), fun kind t hsource => ?_⟩
  rcases h.source k cfg hcfg with ⟨-, hnone⟩ | ⟨-, kind', t', hsource', hin⟩
  · rw [hnone] at hsource
    cases hsource
  · rw [hsource'] at hsource
    obtain ⟨rfl, rfl⟩ := Prod.mk.inj (Option.some.inj hsource)
    exact hsome _ _ hin

/-- Only the links of a KPI itself have it at an end. -/
theorem count_links (hs : Sound w) {id : ℕ} {a : Applied (KpiConfig V)}
    (ha : w.kpis.lookup id = some a) {x y : Obj} (hxy : x = .kpi a.obj ∨ y = .kpi a.obj) :
    ((w.kpis.entries.map Sigma.snd).flatMap (linksOf w)).count (x, y) =
      (linksOf w a).count (x, y) := by
  have hperm := ((Entries.perm_of_lookup ha).map Sigma.snd).flatMap_right (linksOf w)
  rw [hperm.count_eq, List.map_cons, List.flatMap_cons, List.count_append, Nat.add_eq_left]
  refine List.count_eq_zero.mpr fun hin => ?_
  obtain ⟨a', ha', hlink⟩ := List.mem_flatMap.mp hin
  obtain ⟨e, he, rfl⟩ := List.mem_map.mp ha'
  obtain ⟨hentry, hne⟩ := Entries.mem_erase_entries he
  -- the number of the other KPI would be the same
  have hobj : e.2.obj = a.obj := by
    rcases mem_linksOf.mp hlink with ⟨kind, t, m, -, -, rfl, rfl⟩ | ⟨m, -, rfl, rfl⟩
    · rcases hxy with h | h
      · cases h
      · exact Obj.kpi.inj h
    · rcases hxy with h | h
      · exact Obj.kpi.inj h
      · cases h
  exact hne (hs.kpi_inj e.1 id e.2 a (AList.mem_lookup_iff.mpr hentry) ha hobj)

theorem count_linksOf_ba (a : Applied (KpiConfig V)) (n : ℕ) :
    (linksOf w a).count (.kpi a.obj, .target .ba n) =
      if w.find .ba a.cfg.ba_id = some n then 1 else 0 := by
  rw [linksOf, List.count_append]
  have hsource : (((a.cfg.source.bind fun s => (w.find s.1 s.2).map (Obj.target s.1)).toList.map
      fun source => (source, Obj.kpi a.obj))).count (.kpi a.obj, .target .ba n) = 0 := by
    refine List.count_eq_zero.mpr fun hin => ?_
    obtain ⟨o, -, heq⟩ := List.mem_map.mp hin
    cases (Prod.mk.inj heq).2
  rw [hsource, Nat.zero_add]
  cases hba : w.find .ba a.cfg.ba_id with
  | none => rfl
  | some m =>
    simp only [Option.toList_some, List.map_cons, List.map_nil, List.count_singleton, beq_iff_eq,
      Prod.mk.injEq, Obj.target.injEq, true_and, Option.some.injEq]

theorem count_linksOf_source (a : Applied (KpiConfig V)) (kind : Kind) (n : ℕ) :
    (linksOf w a).count (.target kind n, .kpi a.obj) =
      if (a.cfg.source.bind fun s => (w.find s.1 s.2).map (Obj.target s.1)) = some (.target kind n)
      then 1 else 0 := by
  rw [linksOf, List.count_append]
  have hba : ((w.find .ba a.cfg.ba_id).toList.map
      fun ba => (Obj.kpi a.obj, Obj.target .ba ba)).count (.target kind n, .kpi a.obj) = 0 := by
    refine List.count_eq_zero.mpr fun hin => ?_
    obtain ⟨o, -, heq⟩ := List.mem_map.mp hin
    cases (Prod.mk.inj heq).1
  rw [hba, Nat.add_zero]
  cases hs : a.cfg.source.bind fun s => (w.find s.1 s.2).map (Obj.target s.1) with
  | none => rfl
  | some o =>
    simp only [Option.toList_some, List.map_cons, List.map_nil, List.count_singleton, beq_iff_eq,
      Prod.mk.injEq, and_true, Option.some.injEq]

end Links

/-! ## What is there when the links are made -/

section Prepared

variable {V : Type} [DecidableEq V]

/-- The world in which the KPIs are resolved, from the one before the load. -/
structure Prepared (c : Config V) (w w' : World V) : Prop where
  sound : Sound w'
  targets : ∀ kind id, id ∈ w'.targets kind ↔ id ∈ c.targets kind
  parents : w'.parents = w.parents
  /-- A BA that stays is the same object. -/
  bas : ∀ id n, w.find .ba id = some n → id ∈ c.targets .ba → w'.find .ba id = some n
  kept : ∀ id a, w.kpis.lookup id = some a → c.kpis.lookup id = some a.cfg →
    w'.kpis.lookup id = some a
  off : ∀ id, (∀ a, w.kpis.lookup id = some a → c.kpis.lookup id ≠ some a.cfg) →
    active c id = none → w'.kpis.lookup id = none
  on : ∀ id cfg, (∀ a, w.kpis.lookup id = some a → c.kpis.lookup id ≠ some a.cfg) →
    active c id = some cfg → ∃ n, w.next ≤ n ∧ w'.kpis.lookup id = some ⟨cfg, n⟩

variable {w : World V}

theorem mem_toDelete {kpis : AList (fun _ : ℕ => KpiConfig V)} {id : ℕ} :
    id ∈ (toDelete kpis w).keys ↔
      ∃ a, w.kpis.lookup id = some a ∧ kpis.lookup id ≠ some a.cfg := by
  rw [List.mem_keys]
  refine exists_congr fun a => ?_
  rw [toDelete, List.mem_filter, decide_eq_true_eq, ← AList.mem_lookup_iff, Option.mem_def]

theorem mem_toCreate {kpis : AList (fun _ : ℕ => KpiConfig V)} {id : ℕ}
    {cfg : KpiConfig V} :
    (⟨id, cfg⟩ : Sigma fun _ : ℕ => KpiConfig V) ∈ toCreate kpis w ↔
      kpis.lookup id = some cfg ∧ (w.kpis.lookup id).map Applied.cfg ≠ some cfg := by
  rw [toCreate, List.mem_filter, decide_eq_true_eq, ← AList.mem_lookup_iff, Option.mem_def]

/-- The appliers of BAs, meta-services and expressions, one after the other. -/
theorem retarget_spec (h : Sound w) (c : Config V) :
    ∃ w', applyKind .bool_expression c (applyKind .meta_service c (applyKind .ba c w)) = w' ∧
      Sound w' ∧ w.next ≤ w'.next ∧ (∀ kind id, id ∈ w'.targets kind ↔ id ∈ c.targets kind) ∧
      w'.parents = w.parents ∧ w'.kpis = w.kpis ∧
      ∀ id n, w.find .ba id = some n → id ∈ c.targets .ba → w'.find .ba id = some n := by
  obtain ⟨hba, hba'⟩ := applyKind_spec .ba h c
  have h₁ := h.applyKind .ba c
  obtain ⟨hmeta, hmeta'⟩ := applyKind_spec .meta_service h₁ c
  have h₂ := h₁.applyKind .meta_service c
  obtain ⟨hexp, hexp'⟩ := applyKind_spec .bool_expression h₂ c
  refine ⟨_, rfl, h₂.applyKind .bool_expression c,
    Nat.le_trans hba.le (Nat.le_trans hmeta.le hexp.le), fun kind id => ?_, rfl, rfl,
    fun id n hn hid => ?_⟩
  · -- each applier sets its own entries, and the later ones leave them
    cases kind with
    | ba =>
      rw [hexp' .ba nofun, hmeta' .ba nofun]
      exact hba.keys id
    | meta_service =>
      rw [hexp' .meta_service nofun]
      exact hmeta.keys id
    | bool_expression => exact hexp.keys id
  · obtain ⟨b, hb, rfl⟩ := find_eq_some.mp hn
    obtain ⟨a, ha⟩ := Option.isSome_iff_exists.mp (AList.lookup_isSome.mpr ((hba.keys id).mpr hid))
    rw [find_eq_some, hexp' .ba nofun, hmeta' .ba nofun]
    exact ⟨a, ha, hba.same nofun id a b ha hb⟩

omit [DecidableEq V] in
theorem Prepared.cfg {c : Config V} {w' : World V} (h : Prepared c w w') {id : ℕ}
    {a : Applied (KpiConfig V)} (ha : w'.kpis.lookup id = some a) :
    c.kpis.lookup id = some a.cfg := by
  rcases Classical.em (∃ b, w.kpis.lookup id = some b ∧ c.kpis.lookup id = some b.cfg) with
    ⟨b, hb, hsame⟩ | hother
  · rw [h.kept id b hb hsame] at ha
    obtain rfl := Option.some.inj ha
    exact hsame
  · have hother : ∀ b, w.kpis.lookup id = some b → c.kpis.lookup id ≠ some b.cfg :=
      fun b hb hsame => hother ⟨b, hb, hsame⟩
    cases hact : active c id with
    | none =>
      rw [h.off id hother hact] at ha
      cases ha
    | some cfg =>
      obtain ⟨n, -, hl⟩ := h.on id cfg hother hact
      rw [hl] at ha
      obtain rfl := Option.some.inj ha
      exact (Option.filter_eq_some_iff.mp hact).1

theorem prepared {c : Config V} (hc : Valid c) (h : Sound w) :
    ∃ w', Prepared c w w' ∧
      Resolved w' (w'.kpis.entries.map Sigma.snd) (apply c w) := by
  obtain ⟨w₀, heq, hs₀, hle₀, hkeys₀, hparents₀, hkpis₀, hbas₀⟩ := retarget_spec h c
  obtain ⟨hs₁, hnext₁, htargets₁, hparents₁, hlookup₁⟩ := removeKpis_spec (toDelete c.kpis w₀) hs₀
  set w₁ := (toDelete c.kpis w₀).foldl (fun w e => removeKpi e.1 w) w₀
  -- what is created is not there any more
  have hnew : ∀ e ∈ toCreate c.kpis w₀, w₁.kpis.lookup e.1 = none := by
    intro e he
    obtain ⟨hcfg, hne⟩ := mem_toCreate.mp he
    rw [hlookup₁]
    cases hold : w₀.kpis.lookup e.1 with
    | none => exact ite_self _
    | some a =>
      refine if_pos (mem_toDelete.mpr ⟨a, hold, fun hsame => hne ?_⟩)
      rw [hold, Option.map_some, ← hsame, hcfg]
  have hnodup : (toCreate c.kpis w₀).NodupKeys :=
    List.NodupKeys.sublist List.filter_sublist c.kpis.nodupKeys
  have hcre := createKpis_spec c.activated hnodup
    (fun e he => hc.typed (mem_toCreate.mp he).1) hs₁ hnew
  set w₂ := (toCreate c.kpis w₀).foldl (fun w e => createKpi c.activated e.1 e.2 w) w₁
  have hfind : ∀ kind id, w₂.find kind id = w₀.find kind id := fun kind id =>
    (find_congr hcre.targets kind id).trans (find_congr htargets₁ kind id)
  have hcreate : ∀ id cfg, (∀ a, w.kpis.lookup id = some a → c.kpis.lookup id ≠ some a.cfg) →
      c.kpis.lookup id = some cfg →
      (⟨id, cfg⟩ : Sigma fun _ : ℕ => KpiConfig V) ∈ toCreate c.kpis w₀ := by
    intro id cfg hother hcfg
    refine mem_toCreate.mpr ⟨hcfg, fun hsame => ?_⟩
    rw [hkpis₀] at hsame
    obtain ⟨a, ha, heq⟩ := Option.map_eq_some_iff.mp hsame
    exact hother a ha (heq ▸ hcfg)
  have hprep : Prepared c w w₂ := by
    refine ⟨hcre.sound, fun kind id => ?_, ?_, fun id n hn hid => ?_, fun id a ha hcfg => ?_,
      fun id hother hact => ?_, fun id cfg hother hact => ?_⟩
    · rw [hcre.targets, htargets₁]
      exact hkeys₀ kind id
    · rw [hcre.parents, hparents₁, hparents₀]
    · rw [hfind]
      exact hbas₀ id n hn hid
    · rw [hcre.old, hlookup₁, hkpis₀, ha, if_neg]
      · intro hdel
        obtain ⟨a', ha', hne⟩ := mem_toDelete.mp hdel
        rw [hkpis₀, ha] at ha'
        obtain rfl := Option.some.inj ha'
        exact hne hcfg
      · intro hin
        obtain ⟨cfg, hin⟩ := List.mem_keys.mp hin
        obtain ⟨hcfg', hne⟩ := mem_toCreate.mp hin
        rw [hkpis₀, ha, Option.map_some, ← hcfg'] at hne
        exact hne hcfg.symm
    · cases hcfg : c.kpis.lookup id with
      | none =>
        rw [hcre.old, hlookup₁]
        · cases hold : w₀.kpis.lookup id with
          | none => exact ite_self _
          | some a =>
            refine if_pos (mem_toDelete.mpr ⟨a, hold, ?_⟩)
            rw [hcfg]
            exact nofun
        · intro hin
          obtain ⟨cfg, hin⟩ := List.mem_keys.mp hin
          rw [(mem_toCreate.mp hin).1] at hcfg
          cases hcfg
      | some cfg =>
        rw [active, hcfg, Option.filter_eq_none_iff] at hact
        have hoff := hact cfg rfl
        exact hcre.off _ (hcreate id cfg hother hcfg) (Bool.eq_false_iff.mpr hoff)
    · obtain ⟨hcfg, hon⟩ := Option.filter_eq_some_iff.mp hact
      obtain ⟨n, hn, hl⟩ := hcre.on _ (hcreate id cfg hother hcfg) hon
      exact ⟨n, by omega, hl⟩
  refine ⟨w₂, hprep, ?_⟩
  have happly : apply c w = resolve (w₂.kpis.entries.length + 1) w₂ := by
    rw [apply, applyKpis, heq]
  rw [happly]
  exact resolve_spec (fun id a ha => hc.findable hprep.targets (hprep.cfg ha)) _

end Prepared

/-! ## The graph after a load -/

section Reload

variable {V : Type}

variable {w : World V}

theorem find_inj (h : Sound w) {kind : Kind} {id id' n : ℕ}
    (hid : w.find kind id = some n) (hid' : w.find kind id' = some n) : id = id' := by
  obtain ⟨a, ha, rfl⟩ := find_eq_some.mp hid
  obtain ⟨a', ha', heq⟩ := find_eq_some.mp hid'
  exact h.target_inj kind id id' a a' ha ha' heq.symm

variable {w' : World V} {a : Applied (KpiConfig V)}

/-- How often a KPI has a BA among its parents, once it is resolved. -/
theorem count_ba (h : Sound w)
    (hres : Resolved w (w.kpis.entries.map Sigma.snd) w') {k b n : ℕ}
    (ha : w.kpis.lookup k = some a) (hn : w.find .ba b = some n) :
    (w'.parents (.kpi a.obj)).count (.target .ba n) =
      (w.parents (.kpi a.obj)).count (.target .ba n) + if a.cfg.ba_id = b then 1 else 0 := by
  rw [hres.parents, count_links h ha (.inl rfl), count_linksOf_ba]
  congr 1
  refine if_congr ⟨fun hfind => find_inj h hfind hn, fun heq => ?_⟩ rfl rfl
  rw [heq]
  exact hn

/-- How often a KPI is among the parents of a source. -/
theorem count_source (h : Sound w)
    (hres : Resolved w (w.kpis.entries.map Sigma.snd) w') {k t n : ℕ} {kind : Kind}
    (ha : w.kpis.lookup k = some a) (hn : w.find kind t = some n) :
    (w'.parents (.target kind n)).count (.kpi a.obj) =
      (w.parents (.target kind n)).count (.kpi a.obj) +
        if a.cfg.source = some (kind, t) then 1 else 0 := by
  rw [hres.parents, count_links h ha (.inr rfl), count_linksOf_source]
  congr 1
  refine if_congr ⟨fun hbind => ?_, fun heq => ?_⟩ rfl rfl
  · obtain ⟨⟨kind', t'⟩, hs, hmap⟩ := Option.bind_eq_some_iff.mp hbind
    obtain ⟨m, hm, hobj⟩ := Option.map_eq_some_iff.mp hmap
    obtain ⟨hkind, hm'⟩ := Obj.target.inj hobj
    subst hkind hm'
    have ht : t' = t := find_inj h hm hn
    rw [hs, ht]
  · rw [heq, Option.bind_some, hn, Option.map_some]

/-- A world whose KPIs are those of the configuration, with no links yet. -/
structure Blank (c : Config V) (w : World V) : Prop where
  sound : Sound w
  targets : ∀ kind id, id ∈ w.targets kind ↔ id ∈ c.targets kind
  kpis : ∀ k, (w.kpis.lookup k).map Applied.cfg = active c k
  links : ∀ k a, w.kpis.lookup k = some a → ∀ x y, x = .kpi a.obj ∨ y = .kpi a.obj →
    (w.parents x).count y = 0

variable {c : Config V}

theorem Blank.isSome (h : Blank c w) (kind : Kind) (id : ℕ) :
    (w.find kind id).isSome = decide (id ∈ c.targets kind) := by
  rw [find, Option.isSome_map, Bool.eq_iff_iff, AList.lookup_isSome, decide_eq_true_eq, h.targets]

theorem Blank.findable (hc : Valid c) (h : Blank c w) {k : ℕ}
    (hk : w.kpis.lookup k = some a) : Findable w a.cfg := by
  have hact := h.kpis k
  rw [hk] at hact
  exact hc.findable h.targets (Option.filter_eq_some_iff.mp hact.symm).1

theorem Blank.times_kpi_ba (hc : Valid c) (h : Blank c w)
    (hres : Resolved w (w.kpis.entries.map Sigma.snd) w') (k b : ℕ) :
    (graph w').times (.kpi k) (.target .ba b) = (graphOf c).times (.kpi k) (.target .ba b) := by
  have hact := h.kpis k
  simp only [graph, objOf, graphOf, find_congr hres.targets, hres.kpis]
  cases hk : w.kpis.lookup k with
  | none =>
    rw [hk] at hact
    rw [← hact]
    rfl
  | some a =>
    rw [hk] at hact
    rw [← hact]
    simp only [Option.map_some, Option.any_some, decide_eq_true_eq]
    cases hb : w.find .ba b with
    | none =>
      refine (if_neg ?_).symm
      rintro rfl
      obtain ⟨n, hn⟩ := (h.findable hc hk).ba
      rw [hb] at hn
      cases hn
    | some n =>
      simp only [Option.map_some]
      rw [count_ba h.sound hres hk hb, h.links k a hk _ _ (.inl rfl), Nat.zero_add]

theorem Blank.times_target_kpi (hc : Valid c) (h : Blank c w)
    (hres : Resolved w (w.kpis.entries.map Sigma.snd) w') (kind : Kind) (t k : ℕ) :
    (graph w').times (.target kind t) (.kpi k) = (graphOf c).times (.target kind t) (.kpi k) := by
  have hact := h.kpis k
  simp only [graph, objOf, graphOf, find_congr hres.targets, hres.kpis]
  cases hk : w.kpis.lookup k with
  | none =>
    rw [hk] at hact
    rw [← hact]
    cases w.find kind t <;> rfl
  | some a =>
    rw [hk] at hact
    rw [← hact]
    simp only [Option.map_some, Option.any_some, decide_eq_true_eq]
    cases ht : w.find kind t with
    | none =>
      refine (if_neg fun hsource => ?_).symm
      obtain ⟨n, hn⟩ := (h.findable hc hk).source kind t hsource
      rw [ht] at hn
      cases hn
    | some n =>
      simp only [Option.map_some]
      rw [count_source h.sound hres hk ht, h.links k a hk _ _ (.inr rfl), Nat.zero_add]

theorem Blank.impacts_eq (hc : Valid c) (h : Blank c w)
    (hres : Resolved w (w.kpis.entries.map Sigma.snd) w') (b k : ℕ) :
    (graph w').impacts b k = (graphOf c).impacts b k := by
  have hact := h.kpis k
  simp only [graph, graphOf, find_congr hres.targets, hres.kpis]
  cases hk : w.kpis.lookup k with
  | none =>
    rw [hk] at hact
    rw [← hact]
    cases w.find .ba b <;> rfl
  | some a =>
    rw [hk] at hact
    rw [← hact, Option.map_some, Option.any_some]
    cases hb : w.find .ba b with
    | none =>
      refine (decide_eq_false ?_).symm
      rintro rfl
      obtain ⟨n, hn⟩ := (h.findable hc hk).ba
      rw [hb] at hn
      cases hn
    | some n =>
      refine decide_eq_decide.mpr ((hres.impacts n a.obj).trans ⟨?_, fun hba => ?_⟩)
      · rintro (hold | ⟨a', ha', hfind, hobj⟩)
        · obtain ⟨ba, hlookup, rfl⟩ := find_eq_some.mp hb
          obtain ⟨id, a', ha', hobj, hba⟩ := h.sound.impacts b ba a.obj hlookup hold
          obtain rfl := h.sound.kpi_inj id k a' a ha' hk hobj
          obtain rfl := Option.some.inj (ha'.symm.trans hk)
          exact hba
        · obtain ⟨id, ha'⟩ := mem_applied.mp ha'
          obtain rfl := h.sound.kpi_inj id k a' a ha' hk hobj
          obtain rfl := Option.some.inj (ha'.symm.trans hk)
          exact find_inj h.sound hfind hb
      · exact .inr ⟨a, mem_applied.mpr ⟨k, hk⟩, hba ▸ hb, rfl⟩

theorem Blank.listens_eq (h : Blank c w)
    (hres : Resolved w (w.kpis.entries.map Sigma.snd) w') (key : ℕ × ℕ) (k : ℕ) :
    (graph w').listens key k = (graphOf c).listens key k := by
  have hact := h.kpis k
  simp only [graph, graphOf, hres.kpis, hres.book]
  cases hk : w.kpis.lookup k with
  | none =>
    rw [hk] at hact
    rw [← hact]
    rfl
  | some a =>
    rw [hk] at hact
    rw [← hact]
    simp only [Option.map_some, Option.any_some, Bool.and_eq_true, decide_eq_true_eq]
    obtain ⟨hle, hiff⟩ := h.sound.book key a.obj
    by_cases hkey : a.cfg.is_service = true ∧ (a.cfg.host_id, a.cfg.service_id) = key
    · have hpos := hiff.mpr ⟨k, a, hk, rfl, hkey⟩
      rw [if_pos hkey]
      omega
    · rw [if_neg hkey]
      by_contra hne
      obtain ⟨id, a', ha', hobj, hrest⟩ := hiff.mp (Nat.pos_of_ne_zero hne)
      obtain rfl := h.sound.kpi_inj id k a' a ha' hk hobj
      obtain rfl := Option.some.inj (ha'.symm.trans hk)
      exact hkey hrest

/-- Two objects that no link can be between. -/
theorem times_eq_zero (h : Sound w) {x y : Name}
    (hkpi : ∀ k b, x = .kpi k → y ≠ .target .ba b)
    (htarget : ∀ kind t k, x = .target kind t → y ≠ .kpi k) : (graph w).times x y = 0 := by
  simp only [graph]
  cases hx : objOf w x with
  | none => rfl
  | some a =>
    cases hy : objOf w y with
    | none => rfl
    | some b =>
      refine List.count_eq_zero.mpr fun hin => ?_
      -- an object is of the class of its name
      rcases h.edge a b hin with ⟨n, m, rfl, rfl⟩ | ⟨kind, n, m, rfl, rfl⟩
      · cases x with
        | target kind t =>
          obtain ⟨o, -, heq⟩ := Option.map_eq_some_iff.mp hx
          cases heq
        | kpi k =>
          cases y with
          | target kind b =>
            obtain ⟨o, -, heq⟩ := Option.map_eq_some_iff.mp hy
            obtain ⟨rfl, -⟩ := Obj.target.inj heq
            exact hkpi k b rfl rfl
          | kpi k' =>
            obtain ⟨o, -, heq⟩ := Option.map_eq_some_iff.mp hy
            cases heq
      · cases x with
        | target kind t =>
          cases y with
          | target kind b =>
            obtain ⟨o, -, heq⟩ := Option.map_eq_some_iff.mp hy
            cases heq
          | kpi k' => exact htarget kind t k' rfl rfl
        | kpi k =>
          obtain ⟨o, -, heq⟩ := Option.map_eq_some_iff.mp hx
          cases heq

theorem Blank.graph_eq (hc : Valid c) (h : Blank c w)
    (hres : Resolved w (w.kpis.entries.map Sigma.snd) w') : graph w' = graphOf c := by
  have hs' := h.sound.resolved hres
  refine Graph.ext (funext fun x => ?_) (funext fun x => funext fun y => ?_)
    (funext fun b => funext fun k => ?_) (funext fun key => funext fun k => ?_)
  · cases x with
    | target kind id =>
      simp only [graph, objOf, graphOf, Option.isSome_map, find_congr hres.targets]
      exact h.isSome kind id
    | kpi id =>
      simp only [graph, objOf, graphOf, Option.isSome_map, hres.kpis, ← h.kpis]
  · cases x with
    | kpi k =>
      cases y with
      | kpi k' => exact times_eq_zero hs' (fun _ _ _ => nofun) fun _ _ _ => nofun
      | target kind b =>
        cases kind with
        | ba => exact h.times_kpi_ba hc hres k b
        | meta_service | bool_expression => exact times_eq_zero hs' (fun _ _ _ => nofun) fun _ _ _ => nofun
    | target kind t =>
      cases y with
      | kpi k => exact h.times_target_kpi hc hres kind t k
      | target kind' b => exact times_eq_zero hs' (fun _ _ => nofun) fun _ _ _ _ => nofun
  · exact h.impacts_eq hc hres b k
  · exact h.listens_eq hres key k

end Reload

/-! ## Any number of loads -/

section Runs

variable {V : Type} [DecidableEq V]

/-- What holds after any number of loads: a KPI has its BA among its parents. -/
structure Inv (w : World V) : Prop where
  sound : Sound w
  resolved : ∀ k a, w.kpis.lookup k = some a →
    ∃ n, w.find .ba a.cfg.ba_id = some n ∧ .target .ba n ∈ w.parents (.kpi a.obj)

omit [DecidableEq V] in
theorem Inv.init : Inv (init : World V) :=
  ⟨Sound.init, fun k _ h => absurd (h.symm.trans (AList.lookup_empty k)) nofun⟩

variable {w : World V} {c : Config V}

theorem Inv.apply (hc : Valid c) (h : Inv w) : Inv (apply c w) := by
  obtain ⟨w', hprep, hres⟩ := prepared hc h.sound
  refine ⟨hprep.sound.resolved hres, fun k a ha => ?_⟩
  rw [hres.kpis] at ha
  obtain ⟨n, hn⟩ := (hc.findable hprep.targets (hprep.cfg ha)).ba
  refine ⟨n, (find_congr hres.targets _ _).trans hn, hres.mem_parents.mpr (.inr ⟨a, ?_, ?_⟩)⟩
  · exact mem_applied.mpr ⟨k, ha⟩
  · exact mem_linksOf.mpr (.inr ⟨n, hn, rfl, rfl⟩)

theorem Inv.applyAll {cs : List (Config V)} (hcs : ∀ c ∈ cs, Valid c) (h : Inv w) :
    Inv (cs.foldl (fun w c => World.apply c w) w) := by
  induction cs generalizing w with
  | nil => exact h
  | cons c cs ih =>
    exact ih (fun c' hc' => hcs c' (List.mem_cons_of_mem c hc'))
      (h.apply (hcs c List.mem_cons_self))

/-- A load that keeps no KPI has the graph of its configuration. -/
theorem graph_of_noneKept (hc : Valid c) (h : Inv w)
    (hnone : NoneKept c w) : graph (apply c w) = graphOf c := by
  obtain ⟨w', hprep, hres⟩ := prepared hc h.sound
  have hnew : ∀ k, (active c k = none ∧ w'.kpis.lookup k = none) ∨
      ∃ cfg n, active c k = some cfg ∧ w.next ≤ n ∧ w'.kpis.lookup k = some ⟨cfg, n⟩ := by
    intro k
    cases hact : active c k with
    | none => exact .inl ⟨rfl, hprep.off k (hnone k) hact⟩
    | some cfg =>
      obtain ⟨n, hn, hl⟩ := hprep.on k cfg (hnone k) hact
      exact .inr ⟨cfg, n, rfl, hn, hl⟩
  refine Blank.graph_eq hc ⟨hprep.sound, hprep.targets, fun k => ?_, fun k a ha x y hxy => ?_⟩ hres
  · rcases hnew k with ⟨hact, hl⟩ | ⟨cfg, n, hact, -, hl⟩
    · rw [hact, hl, Option.map_none]
    · rw [hact, hl, Option.map_some]
  · rcases hnew k with ⟨-, hl⟩ | ⟨cfg, n, -, hn, hl⟩
    · rw [hl] at ha
      cases ha
    · rw [hl] at ha
      obtain rfl := Option.some.inj ha
      refine List.count_eq_zero.mpr fun hin => ?_
      rw [hprep.parents] at hin
      have hlt := h.sound.edge_lt x y hin n hxy
      omega

/-- A KPI that is kept reaches its BA twice. -/
theorem two_le_times (hc : Valid c) (h : Inv w) {k : ℕ}
    {a : Applied (KpiConfig V)} (ha : w.kpis.lookup k = some a)
    (hcfg : c.kpis.lookup k = some a.cfg) :
    2 ≤ (graph (apply c w)).times (.kpi k) (.target .ba a.cfg.ba_id) := by
  obtain ⟨w', hprep, hres⟩ := prepared hc h.sound
  obtain ⟨n, hn, hin⟩ := h.resolved k a ha
  have hn' := hprep.bas a.cfg.ba_id n hn (hc.ba k a.cfg hcfg)
  have ha' := hprep.kept k a ha hcfg
  have hcount := count_ba hprep.sound hres ha' hn'
  have hpos := List.count_pos_iff.mpr hin
  rw [hprep.parents, if_pos rfl] at hcount
  simp only [graph, objOf, find_congr hres.targets, hres.kpis, ha', hn', Option.map_some]
  omega

omit [DecidableEq V] in
theorem times_le_one (c : Config V) (k b : ℕ) :
    (graphOf c).times (.kpi k) (.target .ba b) ≤ 1 := by
  simp only [graphOf]
  split <;> omega

omit [DecidableEq V] in
theorem noneKept_init [DecidableEq V] (c : Config V) : NoneKept c init :=
  fun k _ h => absurd (h.symm.trans (AList.lookup_empty k)) nofun

/--
A configuration that is loaded first has its own graph. After any number of loads it has it
if and only if no KPI that is there has the configuration it is to have.
-/
theorem reload_iff (cs : List (Config V)) (hcs : ∀ c ∈ cs, Valid c) (c : Config V) (hc : Valid c) :
    graph (apply c init) = graphOf c ∧
      (graph (apply c (cs.foldl (fun w c => apply c w) init)) = graph (apply c init) ↔
        NoneKept c (cs.foldl (fun w c => apply c w) init)) := by
  have hinv : Inv (cs.foldl (fun w c => apply c w) init) := Inv.init.applyAll hcs
  have hfirst := graph_of_noneKept hc Inv.init (noneKept_init c)
  refine ⟨hfirst, fun heq => ?_, fun hnone => ?_⟩
  · intro k a ha hcfg
    have htwo := two_le_times hc hinv ha hcfg
    have hone := times_le_one c k a.cfg.ba_id
    rw [heq, hfirst] at htwo
    omega
  · rw [hfirst]
    exact graph_of_noneKept hc hinv hnone

/-- A BA with a KPI of a service. -/
def oneKpi : Config ℕ where
  targets kind := if kind = .ba then AList.singleton 1 0 else ∅
  kpis := AList.singleton 5 ⟨3, 4, 1, 0, 0, 0, 0⟩
  activated _ _ := true

theorem valid_oneKpi : Valid oneKpi := by
  have honly : ∀ id cfg, oneKpi.kpis.lookup id = some cfg → cfg = ⟨3, 4, 1, 0, 0, 0, 0⟩ := by
    intro id cfg h
    have hmem : (⟨id, cfg⟩ : Sigma fun _ : ℕ => KpiConfig ℕ) ∈ oneKpi.kpis.entries :=
      AList.mem_lookup_iff.mp h
    have heq := List.mem_singleton.mp hmem
    exact eq_of_heq (Sigma.mk.inj heq).2
  refine ⟨fun id cfg h => ?_, fun id cfg h => .inl ?_⟩
  · rw [honly id cfg h]
    decide
  · rw [honly id cfg h]
    decide

theorem reload_iff_oneKpi :
    graph (apply oneKpi init) = graphOf oneKpi ∧
      (graph (apply oneKpi (apply oneKpi init)) = graph (apply oneKpi init) ↔
        NoneKept oneKpi (apply oneKpi init)) := by
  refine reload_iff [oneKpi] (fun c hc => ?_) oneKpi valid_oneKpi
  rw [List.mem_singleton.mp hc]
  exact valid_oneKpi

theorem not_reload :
    ¬∀ c c' : Config ℕ, Valid c → Valid c' →
      graph (apply c' (apply c init)) = graph (apply c' init) := by
  intro h
  have heq := h oneKpi oneKpi valid_oneKpi valid_oneKpi
  have htimes : (graph (apply oneKpi (apply oneKpi init))).times (.kpi 5) (.target .ba 1) =
      (graph (apply oneKpi init)).times (.kpi 5) (.target .ba 1) := by rw [heq]
  exact absurd htimes (by decide +kernel)

end Runs

end CentreonBroker.Bam.Applier
