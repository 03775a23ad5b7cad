import CentreonBroker.Bam.CircularCheck
import CentreonBroker.Lib.Entries

/-!
# The graph of a configuration

Each step of the check adds edges to a graph, whatever the graph was. So the graph that is
built has the edges of all steps, and a loop in it is a loop of what the configuration
relates. It is built if and only if no meta-service selects a service.
-/

namespace CentreonBroker.Bam.CircularCheck

open Applier (KpiConfig)
open Relation (TransGen)

/-! ## What a configuration relates -/

/-- What a node is for. -/
inductive Name where
  | ba (id : ℕ)
  | boolexp (id : ℕ)
  | kpi (id : ℕ)
  | meta_service (id : ℕ)
  | service (host_id service_id : ℕ)
  deriving DecidableEq, Repr

def node_id : Name → NodeId
  | .ba id => ba_node_id id
  | .boolexp id => boolexp_node_id id
  | .kpi id => kpi_node_id id
  | .meta_service id => meta_node_id id
  | .service host_id service_id => service_node_id host_id service_id

section Related

variable {V : Type}

/-- What a KPI watches: the first of these that its configuration has. -/
def watches (cfg : KpiConfig V) : Option Name :=
  match cfg.source with
  | some (.ba, id) => some (.ba id)
  | some (.meta_service, id) => some (.meta_service id)
  | some (.bool_expression, id) => some (.boolexp id)
  | none => if cfg.is_service then some (.service cfg.host_id cfg.service_id) else none

/-- What an update of the first reaches. -/
inductive Related (env : Env) (c : State V) : Name → Name → Prop where
  | ba_status {id : ℕ} {ba : BaConfig} (h : (id, ba) ∈ c.bas) :
    Related env c (.ba id) (.service ba.host_id ba.service_id)
  | meta_status {id : ℕ} {m : MetaServiceConfig} (h : (id, m) ∈ c.meta_services) :
    Related env c (.meta_service id) (.service m.host_id m.service_id)
  | meta_member {id : ℕ} {m : MetaServiceConfig} {svc : ℕ × ℕ} (h : (id, m) ∈ c.meta_services)
    (hsvc : svc ∈ m.services) : Related env c (.service svc.1 svc.2) (.meta_service id)
  | boolexp_service {id : ℕ} {expression : String} {svc : ℕ × ℕ}
    (h : (id, expression) ∈ c.bool_exps) (hsvc : svc ∈ services env expression) :
    Related env c (.service svc.1 svc.2) (.boolexp id)
  | kpi_ba {id : ℕ} {cfg : KpiConfig V} (h : (id, cfg) ∈ c.kpis) :
    Related env c (.kpi id) (.ba cfg.ba_id)
  | kpi_source {id : ℕ} {cfg : KpiConfig V} {n : Name} (h : (id, cfg) ∈ c.kpis)
    (hn : watches cfg = some n) : Related env c n (.kpi id)

theorem source_node_id_eq (cfg : KpiConfig V) : source_node_id cfg = (watches cfg).map node_id := by
  rw [source_node_id, watches, KpiConfig.source]
  by_cases hba : cfg.is_ba = true
  · simp only [hba, if_true, Option.map_some, node_id]
  · by_cases hmeta : cfg.is_meta = true
    · simp only [hba, hmeta, Bool.false_eq_true, if_true, if_false, Option.map_some, node_id]
    · by_cases hexp : cfg.is_boolexp = true
      · simp only [hba, hmeta, hexp, Bool.false_eq_true, if_true, if_false, Option.map_some, node_id]
      · by_cases hs : cfg.is_service = true
        · simp only [hba, hmeta, hexp, hs, Bool.false_eq_true, if_true, if_false, Option.map_some,
            node_id]
        · simp only [hba, hmeta, hexp, hs, Bool.false_eq_true, if_false, Option.map_none]

end Related

/-! ## Two names have two nodes -/

/-- Digits end where something else begins. -/
theorem digits_append_inj {j k : ℕ} {c : Char} {s t : List Char} (hc : c.isDigit = false)
    (h : Decimal.digits j ++ c :: s = Decimal.digits k ++ c :: t) : j = k ∧ s = t := by
  have htake : ∀ (n : ℕ) (u : List Char),
      (Decimal.digits n ++ c :: u).takeWhile Char.isDigit = Decimal.digits n := by
    intro n u
    rw [List.takeWhile_append_of_pos fun a => Decimal.isDigit_of_mem_digits, List.takeWhile_cons_of_neg
      (by rw [hc]; exact Bool.false_ne_true), List.append_nil]
  have heq : Decimal.digits j = Decimal.digits k := by rw [← htake j s, h, htake k t]
  rw [heq] at h
  exact ⟨Decimal.digits_inj heq, (List.cons.inj (List.append_cancel_left h)).2⟩

/-- Two numbers with a text before, between and after them. -/
theorem digits_pair_inj (p u v : List Char) {j k j' k' : ℕ} {c d : Char} (hc : c.isDigit = false)
    (hd : d.isDigit = false)
    (h : p ++ Decimal.digits j ++ c :: u ++ Decimal.digits k ++ d :: v =
      p ++ Decimal.digits j' ++ c :: u ++ Decimal.digits k' ++ d :: v) : j = j' ∧ k = k' := by
  simp only [List.append_assoc, List.cons_append] at h
  obtain ⟨hj, hrest⟩ := digits_append_inj hc (List.append_cancel_left h)
  obtain ⟨hk, -⟩ := digits_append_inj hd (List.append_cancel_left hrest)
  exact ⟨hj, hk⟩

theorem service_node_id_inj {h s h' s' : ℕ} (heq : service_node_id h s = service_node_id h' s') :
    h = h' ∧ s = s' := by
  exact digits_pair_inj (c := ',') (d := ')') "service (".toList [' '] [] rfl rfl heq

/-- The first character tells the kinds apart. -/
def initial : Name → Char
  | .ba _ => 'B'
  | .boolexp _ => 'b'
  | .kpi _ => 'K'
  | .meta_service _ => 'm'
  | .service _ _ => 's'

theorem head_node_id (n : Name) : (node_id n).head? = some (initial n) := by
  cases n <;> rfl

theorem node_id_inj : Function.Injective node_id := by
  intro a b h
  have hinitial : initial a = initial b := by
    have hhead := congrArg List.head? h
    rw [head_node_id, head_node_id] at hhead
    exact Option.some.inj hhead
  cases a <;> cases b <;> first
    | exact absurd hinitial (by simp only [initial]; decide)
    | exact congrArg _ (Decimal.digits_inj (List.append_cancel_left h))
    | (obtain ⟨rfl, rfl⟩ := service_node_id_inj h; rfl)

/-! ## Steps that add edges -/

/-- A step that adds these edges, whatever the graph was. -/
structure Adds (f : Nodes → Nodes) (E : NodeId → NodeId → Prop) : Prop where
  mem : ∀ nodes x y, y ∈ targetsOf (f nodes) x ↔ y ∈ targetsOf nodes x ∨ E x y
  nodup : ∀ nodes, (∀ x, (targetsOf nodes x).Nodup) → ∀ x, (targetsOf (f nodes) x).Nodup

theorem targetsOf_insert (nodes : Nodes) (n : NodeId) (ts : List NodeId) (x : NodeId) :
    targetsOf (nodes.insert n ts) x = if x = n then ts else targetsOf nodes x := by
  rw [targetsOf, Entries.lookup_insert, apply_ite (Option.getD · [])]
  rfl

theorem adds_touch (n : NodeId) : Adds (touch n) fun _ _ => False := by
  have hsame : ∀ nodes x, targetsOf (touch n nodes) x = targetsOf nodes x := by
    intro nodes x
    rw [touch, targetsOf_insert]
    split
    · rename_i hx
      rw [hx]
    · rfl
  exact ⟨fun nodes x y => by rw [hsame, or_false], fun nodes h x => by rw [hsame]; exact h x⟩

theorem adds_addTarget (n target : NodeId) :
    Adds (addTarget n target) fun x y => x = n ∧ y = target := by
  refine ⟨fun nodes x y => ?_, fun nodes h x => ?_⟩
  · rw [addTarget, targetsOf_insert]
    by_cases hx : x = n
    · subst hx
      rw [if_pos rfl, List.mem_insert_iff, or_comm]
      simp only [true_and]
    · simp only [hx, if_false, false_and, or_false]
  · rw [addTarget, targetsOf_insert]
    split
    · exact (h n).insert
    · exact h x

theorem Adds.comp {f g : Nodes → Nodes} {E F : NodeId → NodeId → Prop} (hf : Adds f E)
    (hg : Adds g F) : Adds (fun nodes => g (f nodes)) fun x y => E x y ∨ F x y :=
  ⟨fun nodes x y => by rw [hg.mem, hf.mem, or_assoc], fun nodes h => hg.nodup _ (hf.nodup nodes h)⟩

theorem Adds.congr {f : Nodes → Nodes} {E F : NodeId → NodeId → Prop} (hf : Adds f E)
    (h : ∀ x y, E x y ↔ F x y) : Adds f F :=
  ⟨fun nodes x y => by rw [hf.mem, h], hf.nodup⟩

theorem adds_foldl {B : Type} {f : Nodes → B → Nodes} {E : B → NodeId → NodeId → Prop}
    (hf : ∀ b, Adds (fun nodes => f nodes b) (E b)) (l : List B) :
    Adds (fun nodes => l.foldl f nodes) fun x y => ∃ b ∈ l, E b x y := by
  induction l with
  | nil =>
    refine ⟨fun nodes x y => ?_, fun nodes h => h⟩
    simp
  | cons b l ih =>
    refine ((hf b).comp ih).congr fun x y => ?_
    simp only [List.exists_mem_cons_iff]

theorem adds_addBa (e : ℕ × BaConfig) : Adds (fun nodes => addBa nodes e) fun x y =>
    x = ba_node_id e.1 ∧ y = service_node_id e.2.host_id e.2.service_id :=
  adds_addTarget (ba_node_id e.1) (service_node_id e.2.host_id e.2.service_id)

theorem adds_addBoolExp (env : Env) (e : ℕ × String) : Adds (fun nodes => addBoolExp env nodes e)
    fun x y => ∃ svc ∈ services env e.2, x = service_node_id svc.1 svc.2 ∧ y = boolexp_node_id e.1 := by
  have htouch := adds_touch (boolexp_node_id e.1)
  have hall := adds_foldl (f := fun nodes (svc : ℕ × ℕ) =>
    addTarget (service_node_id svc.1 svc.2) (boolexp_node_id e.1) nodes) (fun svc => adds_addTarget
      (service_node_id svc.1 svc.2) (boolexp_node_id e.1)) (services env e.2)
  have hboth := htouch.comp hall
  exact ⟨fun nodes x y => (hboth.mem nodes x y).trans (or_congr_right (iff_of_eq (false_or _))), hboth.nodup⟩

theorem adds_addKpi {V : Type} (e : ℕ × KpiConfig V) : Adds (fun nodes => addKpi nodes e) fun x y =>
    (x = kpi_node_id e.1 ∧ y = ba_node_id e.2.ba_id) ∨
      (source_node_id e.2 = some x ∧ y = kpi_node_id e.1) := by
  have hba := adds_addTarget (kpi_node_id e.1) (ba_node_id e.2.ba_id)
  cases hs : source_node_id e.2 with
  | none =>
    have heq : (fun nodes => addKpi nodes e) =
        addTarget (kpi_node_id e.1) (ba_node_id e.2.ba_id) := by
      funext nodes
      simp only [addKpi, hs]
    rw [heq]
    refine hba.congr fun x y => ?_
    simp
  | some n =>
    have heq : (fun nodes => addKpi nodes e) = fun nodes =>
        addTarget n (kpi_node_id e.1) (addTarget (kpi_node_id e.1) (ba_node_id e.2.ba_id) nodes) := by
      funext nodes
      simp only [addKpi, hs]
    rw [heq]
    refine (hba.comp (adds_addTarget n (kpi_node_id e.1))).congr fun x y => ?_
    rw [Option.some.injEq, eq_comm (a := n)]

/-! ## The loop over the meta-services -/

def addMeta (nodes : Nodes) (e : ℕ × MetaServiceConfig) : Nodes :=
  addTarget (meta_node_id e.1) (service_node_id e.2.host_id e.2.service_id) nodes

theorem serviceLoop_cons (meta_id : NodeId) (it : List (ℕ × MetaServiceConfig)) (svc : ℕ × ℕ)
    (svcs : List (ℕ × ℕ)) (nodes : Nodes) : serviceLoop meta_id it (svc :: svcs) nodes = none := by
  induction it generalizing nodes with
  | nil => rfl
  | cons e it ih => exact ih _

theorem metaLoop_of_empty {id : ℕ} {m : MetaServiceConfig} (hm : m.services = [])
    (it : List (ℕ × MetaServiceConfig)) (nodes : Nodes) :
    metaLoop ((id, m) :: it) nodes = metaLoop it (addMeta nodes (id, m)) := by
  rw [metaLoop]
  split
  · rename_i h
    rw [hm, serviceLoop] at h
    cases h
  · rename_i h
    rw [hm, serviceLoop] at h
    obtain ⟨rfl, rfl⟩ := Prod.mk.inj (Option.some.inj h)
    rfl

theorem metaLoop_of_member {id : ℕ} {m : MetaServiceConfig} (hm : m.services ≠ [])
    (it : List (ℕ × MetaServiceConfig)) (nodes : Nodes) : metaLoop ((id, m) :: it) nodes = none := by
  obtain ⟨svc, svcs, hcons⟩ := List.exists_cons_of_ne_nil hm
  rw [metaLoop]
  split
  · rfl
  · rename_i h
    rw [hcons, serviceLoop_cons] at h
    cases h

/-- **The loop ends if and only if no meta-service selects a service.** -/
theorem metaLoop_eq_some {l : List (ℕ × MetaServiceConfig)} {nodes nodes' : Nodes} :
    metaLoop l nodes = some nodes' ↔
      (∀ e ∈ l, e.2.services = []) ∧ nodes' = l.foldl addMeta nodes := by
  induction l generalizing nodes with
  | nil =>
    rw [metaLoop, Option.some.injEq, eq_comm]
    exact ⟨fun h => ⟨fun e he => absurd he List.not_mem_nil, h⟩, fun h => h.2⟩
  | cons e l ih =>
    by_cases hm : e.2.services = []
    · rw [metaLoop_of_empty hm, ih, List.forall_mem_cons]
      exact ⟨fun h => ⟨⟨hm, h.1⟩, h.2⟩, fun h => ⟨h.1.2, h.2⟩⟩
    · rw [metaLoop_of_member hm]
      exact iff_of_false (Option.some_ne_none _).symm fun h => hm (h.1 e List.mem_cons_self)

/-! ## The graph that is built -/

section Build

variable {V : Type}

theorem buildNodes_eq_some {env : Env} {c : State V} {nodes : Nodes} :
    buildNodes env c = some nodes ↔ (∀ e ∈ c.meta_services, e.2.services = []) ∧
      c.kpis.foldl addKpi (c.bool_exps.foldl (addBoolExp env)
        (c.meta_services.foldl addMeta (c.bas.foldl addBa ∅))) = nodes := by
  rw [buildNodes, Option.map_eq_some_iff]
  refine ⟨fun ⟨nodes', hloop, heq⟩ => ?_, fun ⟨hempty, heq⟩ => ?_⟩
  · obtain ⟨hempty, rfl⟩ := metaLoop_eq_some.mp hloop
    exact ⟨hempty, heq⟩
  · exact ⟨_, metaLoop_eq_some.mpr ⟨hempty, rfl⟩, heq⟩

theorem adds_addMeta (e : ℕ × MetaServiceConfig) : Adds (fun nodes => addMeta nodes e) fun x y =>
    x = meta_node_id e.1 ∧ y = service_node_id e.2.host_id e.2.service_id :=
  adds_addTarget (meta_node_id e.1) (service_node_id e.2.host_id e.2.service_id)

/-- The edges of the graph are what the configuration relates, each once. -/
theorem mem_targetsOf_build {env : Env} {c : State V} {nodes : Nodes}
    (h : buildNodes env c = some nodes) :
    (∀ x y, y ∈ targetsOf nodes x ↔ ∃ a b, Related env c a b ∧ x = node_id a ∧ y = node_id b) ∧
      ∀ x, (targetsOf nodes x).Nodup := by
  obtain ⟨hempty, rfl⟩ := buildNodes_eq_some.mp h
  have hadds := (((adds_foldl adds_addBa c.bas).comp (adds_foldl adds_addMeta c.meta_services)).comp
    (adds_foldl (adds_addBoolExp env) c.bool_exps)).comp (adds_foldl adds_addKpi c.kpis)
  refine ⟨fun x y => (hadds.mem ∅ x y).trans ?_, hadds.nodup ∅ fun x => ?_⟩
  · have hnone : y ∉ targetsOf ∅ x := by
      rw [targetsOf, AList.lookup_empty]
      exact List.not_mem_nil
    simp only [hnone, false_or]
    refine ⟨?_, fun ⟨a, b, hrel, hx, hy⟩ => ?_⟩
    · rintro (((⟨e, he, rfl, rfl⟩ | ⟨e, he, rfl, rfl⟩) | ⟨e, he, svc, hsvc, rfl, rfl⟩) |
        ⟨e, he, ⟨rfl, rfl⟩ | ⟨hn, rfl⟩⟩)
      · exact ⟨.ba e.1, .service _ _, .ba_status he, rfl, rfl⟩
      · exact ⟨.meta_service e.1, .service _ _, .meta_status he, rfl, rfl⟩
      · exact ⟨.service svc.1 svc.2, .boolexp e.1, .boolexp_service he hsvc, rfl, rfl⟩
      · exact ⟨.kpi e.1, .ba _, .kpi_ba he, rfl, rfl⟩
      · rw [source_node_id_eq] at hn
        obtain ⟨n, hwatch, heq⟩ := Option.map_eq_some_iff.mp hn
        exact ⟨n, .kpi e.1, .kpi_source he hwatch, heq.symm, rfl⟩
    · cases hrel with
      | ba_status he => exact .inl (.inl (.inl ⟨_, he, hx, hy⟩))
      | meta_status he => exact .inl (.inl (.inr ⟨_, he, hx, hy⟩))
      | @meta_member id m svc he hsvc =>
        -- no meta-service selects a service
        have hnil := hempty (id, m) he
        rw [hnil] at hsvc
        exact absurd hsvc List.not_mem_nil
      | boolexp_service he hsvc => exact .inl (.inr ⟨_, he, _, hsvc, hx, hy⟩)
      | kpi_ba he => exact .inr ⟨_, he, .inl ⟨hx, hy⟩⟩
      | @kpi_source id cfg n he hn =>
        refine .inr ⟨_, he, .inr ⟨?_, hy⟩⟩
        rw [source_node_id_eq, hn, hx, Option.map_some]
  · rw [targetsOf, AList.lookup_empty]
    exact List.nodup_nil

/-- A loop of the graph is a loop of what the configuration relates. -/
theorem cycle_iff {env : Env} {c : State V} {nodes : Nodes}
    (hmem : ∀ x y, y ∈ targetsOf nodes x ↔
      ∃ a b, Related env c a b ∧ x = node_id a ∧ y = node_id b) :
    (∃ x, TransGen (DepthFirst.Edge fun n => nodes.lookup n) x x) ↔
      ∃ a, TransGen (Related env c) a a := by
  have hedge : ∀ x y, DepthFirst.Edge (fun n => nodes.lookup n) x y ↔ y ∈ targetsOf nodes x := by
    intro x y
    rw [DepthFirst.Edge, targetsOf]
    cases nodes.lookup x with
    | none => exact iff_of_false (fun ⟨ts, h, _⟩ => absurd h nofun) List.not_mem_nil
    | some ts => exact ⟨fun ⟨ts', h, hy⟩ => Option.some.inj h ▸ hy, fun hy => ⟨ts, rfl, hy⟩⟩
  have hlift : ∀ a b, Related env c a b →
      DepthFirst.Edge (fun n => nodes.lookup n) (node_id a) (node_id b) := fun a b hrel =>
    (hedge _ _).mpr ((hmem _ _).mpr ⟨a, b, hrel, rfl, rfl⟩)
  have hlower : ∀ x y, TransGen (DepthFirst.Edge fun n => nodes.lookup n) x y →
      ∃ a b, x = node_id a ∧ y = node_id b ∧ TransGen (Related env c) a b := by
    intro x y hpath
    induction hpath with
    | single h =>
      obtain ⟨a, b, hrel, hx, hy⟩ := (hmem _ _).mp ((hedge _ _).mp h)
      exact ⟨a, b, hx, hy, .single hrel⟩
    | tail _ h ih =>
      obtain ⟨a, b, hx, hy, hpath⟩ := ih
      obtain ⟨b', d, hrel, hy', hz⟩ := (hmem _ _).mp ((hedge _ _).mp h)
      -- the node in the middle has one name
      have hb : b = b' := node_id_inj (hy.symm.trans hy')
      subst hb
      exact ⟨a, d, hx, hz, hpath.tail hrel⟩
  refine ⟨fun ⟨x, hcycle⟩ => ?_, fun ⟨a, hcycle⟩ => ⟨node_id a, hcycle.lift node_id hlift⟩⟩
  obtain ⟨a, b, hx, hy, hpath⟩ := hlower x x hcycle
  have hab : a = b := node_id_inj (hx.symm.trans hy)
  subst hab
  exact ⟨a, hpath⟩

/-- A graph as the check is to build it, and what its visits find. -/
structure Checked (env : Env) (c : State V) (nodes : Nodes) : Prop where
  /-- What the configuration relates is an edge, once. -/
  edge : ∀ a b, Related env c a b → (targetsOf nodes (node_id a)).count (node_id b) = 1
  /-- There are no other edges. -/
  only : ∀ x y, y ∈ targetsOf nodes x → ∃ a b, Related env c a b ∧ x = node_id a ∧ y = node_id b
  ends : ∀ order, (∀ x, x ∈ order ↔ x ∈ nodes) → checkNodes nodes order ≠ .exhausted
  rejects : ∀ order, (∀ x, x ∈ order ↔ x ∈ nodes) →
    (checkNodes nodes order = .loop ↔ ∃ a, TransGen (Related env c) a a)

/--
**The check comes to an end, with a graph that has every edge, if and only if no
meta-service selects a service.**
-/
theorem circular_check_iff (env : Env) (c : State V) :
    (∃ nodes, buildNodes env c = some nodes ∧ Checked env c nodes) ↔
      ∀ e ∈ c.meta_services, e.2.services = [] := by
  refine ⟨fun ⟨nodes, h, _⟩ => (buildNodes_eq_some.mp h).1, fun hempty => ?_⟩
  refine ⟨_, buildNodes_eq_some.mpr ⟨hempty, rfl⟩, ?_⟩
  obtain ⟨hmem, hnodup⟩ := mem_targetsOf_build (buildNodes_eq_some.mpr ⟨hempty, rfl⟩)
  set nodes := c.kpis.foldl addKpi (c.bool_exps.foldl (addBoolExp env)
    (c.meta_services.foldl addMeta (c.bas.foldl addBa ∅)))
  have hkeys : ∀ x, (nodes.lookup x).isSome → x ∈ nodes := fun x hx => AList.lookup_isSome.mp hx
  have hsearch : ∀ order, (∀ x, x ∈ order ↔ x ∈ nodes) →
      checkNodes nodes order ≠ .exhausted ∧
        (checkNodes nodes order = .loop ↔ ∃ a, TransGen (Related env c) a a) := by
    intro order horder
    have hspec := @DepthFirst.search_spec _ (fun n => nodes.lookup n) _ nodes.keys.toFinset
      (fun x hx => List.mem_toFinset.mpr (hkeys x hx)) (nodes.keys.length + 1)
      (Nat.lt_succ_of_le (List.toFinset_card_le _)) order fun x hx => (horder x).mpr (hkeys x hx)
    rw [cycle_iff hmem] at hspec
    exact hspec
  refine ⟨fun a b hrel => ?_, fun x y hy => (hmem x y).mp hy, fun order horder =>
    (hsearch order horder).1, fun order horder => (hsearch order horder).2⟩
  exact List.count_eq_one_of_mem (hnodup _) ((hmem _ _).mpr ⟨a, b, hrel, rfl, rfl⟩)

/-- One meta-service, with one service. -/
def oneMember : State ℕ := ⟨[], [(1, ⟨1, 2, [(1, 3)]⟩)], [], []⟩

theorem not_circular_check : ¬∀ (env : Env) (c : State ℕ),
    ∃ nodes, buildNodes env c = some nodes ∧ Checked env c nodes := by
  intro h
  obtain ⟨nodes, hbuild, -⟩ := h ⟨⟨fun _ => none, fun _ => 0, fun _ _ => (0, 0)⟩, fun _ => .ok []⟩
    oneMember
  rw [buildNodes, oneMember, metaLoop_of_member (List.cons_ne_nil _ _)] at hbuild
  exact absurd hbuild nofun

end Build

end CentreonBroker.Bam.CircularCheck

/-!
## What the search for a loop decides

A visit throws if and only if its node leads to a loop, at whatever moment of the check. No node
is explored twice, and the appliers are called behind the check.
-/

namespace CentreonBroker.Bam.CircularCheck

open Relation (TransGen ReflTransGen)

/-- `_circular_check(node)`, with the marks that were left by the visits before it. -/
def checkNode (nodes : Nodes) (n : NodeId) (m : DepthFirst.Marks NodeId) :
    DepthFirst.Outcome NodeId :=
  DepthFirst.visit (fun n => nodes.lookup n) (nodes.keys.length + 1) n m

/-- `checkNodes`, with the nodes that are explored. -/
def exploredNodes (nodes : Nodes) (order : List NodeId) : DepthFirst.Traced NodeId :=
  DepthFirst.tracedSearch (fun n => nodes.lookup n) (nodes.keys.length + 1) order

/-- An edge of the graph. -/
def Target (nodes : Nodes) (x y : NodeId) : Prop := y ∈ targetsOf nodes x

/-- A loop that a node leads to. -/
def LeadsToLoop (nodes : Nodes) (n : NodeId) : Prop :=
  ∃ x, ReflTransGen (Target nodes) n x ∧ TransGen (Target nodes) x x

/-! ## `applier::state::apply` -/

/-- The `apply` of each of the four appliers: what it makes of the objects, and what it throws. -/
structure Appliers (V W : Type) where
  ba_applier : State V → W → W × Option String
  meta_service_applier : State V → W → W × Option String
  bool_exp_applier : State V → W → W × Option String
  kpi_applier : State V → W → W × Option String

/-- Calls one after the other, up to the first that throws. -/
def inTurn {V W : Type} (c : State V) :
    List (State V → W → W × Option String) → W → W × Option String
  | [], w => (w, none)
  | f :: fs, w =>
    match f c w with
    | (w, none) => inTurn c fs w
    | (w, some msg) => (w, some msg)

/--
`apply` on the objects that all appliers share, if it comes to an end: what it makes of them,
and what it throws. The check visits the nodes in some order.
-/
def apply {V W : Type} (env : Env) (order : Nodes → List NodeId) (appliers : Appliers V W)
    (my_state : State V) (w : W) : Option (W × Option String) :=
  (buildNodes env my_state).bind fun nodes =>
    match checkNodes nodes (order nodes) with
    | .exhausted => none
    | .loop => some (w, some "BAM: loop found in BA graph")
    | .done _ => some (inTurn my_state [appliers.ba_applier, appliers.meta_service_applier,
        appliers.bool_exp_applier, appliers.kpi_applier] w)

/-! ## The check of a node -/

theorem edge_iff (nodes : Nodes) (x y : NodeId) :
    DepthFirst.Edge (fun n => nodes.lookup n) x y ↔ Target nodes x y := by
  rw [DepthFirst.Edge, Target, targetsOf]
  cases nodes.lookup x with
  | none =>
    refine iff_of_false ?_ List.not_mem_nil
    intro hedge
    obtain ⟨ts, hts, -⟩ := hedge
    cases hts
  | some ts =>
    constructor
    · intro hedge
      obtain ⟨ts', hts, hy⟩ := hedge
      rw [Option.some.inj hts]
      exact hy
    · intro hy
      exact ⟨ts, rfl, hy⟩

theorem edge_eq (nodes : Nodes) :
    DepthFirst.Edge (fun n => nodes.lookup n) = Target nodes := by
  funext x y
  exact propext (edge_iff nodes x y)

theorem lookup_mem (nodes : Nodes) (x : NodeId) (h : (nodes.lookup x).isSome) :
    x ∈ nodes.keys.toFinset :=
  List.mem_toFinset.mpr (AList.lookup_isSome.mp h)

theorem keys_lt (nodes : Nodes) : nodes.keys.toFinset.card < nodes.keys.length + 1 :=
  Nat.lt_succ_of_le (List.toFinset_card_le _)

/-- A visit, once visits before it have come to an end. -/
theorem checkNode_spec (nodes : Nodes) {before : List NodeId} {m : DepthFirst.Marks NodeId}
    (h : checkNodes nodes before = .done m) (n : NodeId) : checkNode nodes n m ≠ .exhausted ∧
      (checkNode nodes n m = .loop ↔ LeadsToLoop nodes n) := by
  obtain ⟨hin, hsettled⟩ := DepthFirst.search_marks h
  have hspec := DepthFirst.visit_spec (lookup_mem nodes) (keys_lt nodes) hin hsettled n
  rw [edge_eq] at hspec
  exact hspec

/-- The whole check, over all nodes. -/
theorem checkNodes_spec (nodes : Nodes) {order : List NodeId}
    (horder : ∀ x, x ∈ nodes → x ∈ order) : checkNodes nodes order ≠ .exhausted ∧
      (checkNodes nodes order = .loop ↔ ∃ x, TransGen (Target nodes) x x) := by
  have hspec := DepthFirst.search_spec (lookup_mem nodes) (keys_lt nodes)
    fun x hx => horder x (AList.lookup_isSome.mp hx)
  rw [edge_eq] at hspec
  exact hspec

/-- Nothing has happened to the objects when the check throws. -/
theorem apply_of_loop {V W : Type} {env : Env} {order : Nodes → List NodeId}
    {appliers : Appliers V W} {c : State V} {w : W} {nodes : Nodes}
    (hbuild : buildNodes env c = some nodes) (hloop : checkNodes nodes (order nodes) = .loop) :
    apply env order appliers c w = some (w, some "BAM: loop found in BA graph") := by
  rw [apply, hbuild, Option.bind_some, hloop]

/-- Which nodes the visits of a check explore, and how the check ends. -/
def ExploresOnce (nodes : Nodes) (order : List NodeId) : Prop :=
  (exploredNodes nodes order).outcome = checkNodes nodes order ∧ (exploredNodes nodes order).Once

/--
**The search for a loop is exact.** For every graph: whatever nodes were visited before, the
visit of a node comes to an end, and throws if and only if the node leads to a loop; no check
explores a node twice; and the check of a configuration comes to an end, throws if and only if
its graph has a loop, and then leaves the objects as they were.
-/
theorem circular_check_exact (nodes : Nodes) :
    (∀ n before m, checkNodes nodes before = .done m → checkNode nodes n m ≠ .exhausted ∧
      (checkNode nodes n m = .loop ↔ LeadsToLoop nodes n)) ∧
    (∀ order, ExploresOnce nodes order) ∧
    ∀ (V W : Type) (env : Env) (order : Nodes → List NodeId) (appliers : Appliers V W)
      (c : State V) (w : W), (∀ x, x ∈ nodes → x ∈ order nodes) → buildNodes env c = some nodes →
        checkNodes nodes (order nodes) ≠ .exhausted ∧
        (checkNodes nodes (order nodes) = .loop ↔ ∃ x, TransGen (Target nodes) x x) ∧
        (checkNodes nodes (order nodes) = .loop →
          apply env order appliers c w = some (w, some "BAM: loop found in BA graph")) := by
  refine ⟨fun n before m h => checkNode_spec nodes h n, fun order => ?_, ?_⟩
  · exact ⟨DepthFirst.tracedSearch_outcome _ _, DepthFirst.tracedSearch_once _ _⟩
  · intro V W env order appliers c w horder hbuild
    obtain ⟨hends, hloop⟩ := checkNodes_spec nodes horder
    exact ⟨hends, hloop, apply_of_loop hbuild⟩

/-- A BA that leads to itself and to another one. -/
def selfLoop : Nodes := (AList.insert ['a'] [['a'], ['b']] ∅ : Nodes).insert ['b'] []

/-- Two BAs, each of which is a KPI of the other. -/
def twoBas : State ℕ :=
  ⟨[(1, ⟨1, 1⟩), (2, ⟨1, 2⟩)], [], [],
    [(10, ⟨0, 0, 1, 2, 0, 0, 0⟩), (20, ⟨0, 0, 2, 1, 0, 0, 0⟩)]⟩

/-- No expression has a service. -/
def noServices : Env := ⟨⟨fun _ => none, fun _ => 0, fun _ _ => (0, 0)⟩, fun _ => .ok []⟩

theorem circular_check_exact_selfLoop :
    checkNode selfLoop ['a'] ⟨∅, ∅⟩ = .loop ∧ checkNode selfLoop ['b'] ⟨∅, ∅⟩ ≠ .loop ∧
      ∀ appliers : Appliers ℕ ℕ,
        apply noServices (fun nodes => nodes.keys) appliers twoBas 0 =
          some (0, some "BAM: loop found in BA graph") := by
  have hedge : ['a'] ∈ targetsOf selfLoop ['a'] := by decide
  have hself : LeadsToLoop selfLoop ['a'] := ⟨['a'], .refl, .single hedge⟩
  refine ⟨((circular_check_exact selfLoop).1 ['a'] [] ⟨∅, ∅⟩ rfl).2.mpr hself, ?_, fun appliers => ?_⟩
  · intro hloop
    obtain ⟨x, hreach, hcycle⟩ := ((circular_check_exact selfLoop).1 ['b'] [] ⟨∅, ∅⟩ rfl).2.mp hloop
    have hnone : ∀ y, ¬Target selfLoop ['b'] y := fun y hy => absurd hy List.not_mem_nil
    rcases ReflTransGen.cases_head hreach with rfl | ⟨y, hy, -⟩
    · obtain ⟨y, hy, -⟩ := TransGen.head'_iff.mp hcycle
      exact hnone y hy
    · exact hnone y hy
  · have hbuild : buildNodes noServices twoBas =
        some (twoBas.kpis.foldl addKpi (twoBas.bas.foldl addBa ∅)) := by
      have hmeta : metaLoop twoBas.meta_services (twoBas.bas.foldl addBa ∅) = _ := metaLoop.eq_1 _
      rw [buildNodes, hmeta]
      rfl
    obtain ⟨-, hiff, hthrows⟩ := (circular_check_exact _).2.2 ℕ ℕ _ (fun nodes => nodes.keys) appliers
      twoBas 0 (fun x hx => AList.mem_keys.mp hx) hbuild
    refine hthrows (hiff.mpr ⟨ba_node_id 1, ?_⟩)
    have hba (x y : NodeId) (h : y ∈ targetsOf (twoBas.kpis.foldl addKpi (twoBas.bas.foldl addBa ∅)) x) :
        Target (twoBas.kpis.foldl addKpi (twoBas.bas.foldl addBa ∅)) x y := h
    exact (TransGen.single (hba _ (kpi_node_id 20) (by decide +kernel))).tail
      (hba _ (ba_node_id 2) (by decide +kernel)) |>.tail
      (hba _ (kpi_node_id 10) (by decide +kernel)) |>.tail (hba _ _ (by decide +kernel))

end CentreonBroker.Bam.CircularCheck
