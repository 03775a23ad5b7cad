import CentreonBroker.Bam.Applier
import CentreonBroker.Bam.Boolean
import CentreonBroker.Lib.Decimal
import CentreonBroker.Lib.DepthFirst

/-!
# The search for a loop in a configuration

Before a configuration is applied, a graph of all that it relates is built and searched for a
loop. Nodes are the texts that the source gives them. The loop over the services of a
meta-service advances the iterator of the loop around it: it does not end unless there are
none.

A map is the list of its entries, and a set a list with no duplicates. The parser of
expressions is a parameter.
-/

namespace CentreonBroker.Bam.CircularCheck

open Applier (KpiConfig)
open Decimal (digits)

/-! ## Configuration -/

/-- The members of `configuration::ba` that are read. -/
structure BaConfig where
  host_id : ℕ
  service_id : ℕ

/-- The members of `configuration::meta_service` that are read. -/
structure MetaServiceConfig where
  host_id : ℕ
  service_id : ℕ
  services : List (ℕ × ℕ)

/-- `configuration::state`. Of a boolean expression, its text is read. -/
structure State (V : Type) where
  bas : List (ℕ × BaConfig)
  meta_services : List (ℕ × MetaServiceConfig)
  bool_exps : List (ℕ × String)
  kpis : List (ℕ × KpiConfig V)

/-- `exp_builder::get_services`: no service that was created is dropped from the tree. -/
def treeServices : Node → List (ℕ × ℕ)
  | .constant _ => []
  | .service host_id service_id _ => [(host_id, service_id)]
  | .not value => treeServices value
  | .binary _ left right _ => treeServices left ++ treeServices right

/-- What turns the text of an expression into a tree. -/
structure Env extends ExpBuilder.Env where
  get_postfix : String → Except String (List String)

/-- The services of an expression. An error is ignored. -/
def services (env : Env) (expression : String) : List (ℕ × ℕ) :=
  match env.get_postfix expression >>= ExpBuilder.build env.toEnv with
  | .ok tree => treeServices tree
  | .error _ => []

/-! ## Nodes -/

abbrev NodeId := List Char

def ba_node_id (ba_id : ℕ) : NodeId := "BA ".toList ++ digits ba_id

def boolexp_node_id (boolexp_id : ℕ) : NodeId := "boolean expression ".toList ++ digits boolexp_id

def kpi_node_id (kpi_id : ℕ) : NodeId := "KPI ".toList ++ digits kpi_id

def meta_node_id (meta_id : ℕ) : NodeId := "meta-service ".toList ++ digits meta_id

def service_node_id (host_id service_id : ℕ) : NodeId :=
  "service (".toList ++ digits host_id ++ [',', ' '] ++ digits service_id ++ [')']

/-- `_nodes`, by the targets of each node. -/
abbrev Nodes := AList (fun _ : NodeId => List NodeId)

/-- The targets of a node, none if it is not there. -/
def targetsOf (nodes : Nodes) (n : NodeId) : List NodeId := (nodes.lookup n).getD []

/-- `_nodes[n]`. -/
def touch (n : NodeId) (nodes : Nodes) : Nodes := nodes.insert n (targetsOf nodes n)

/-- `_nodes[n].targets.insert(target)`. -/
def addTarget (n target : NodeId) (nodes : Nodes) : Nodes :=
  nodes.insert n ((targetsOf nodes n).insert target)

/-! ## The graph of a configuration -/

/--
The loop over the services of a meta-service. It advances `it`, the iterator of the loop
around it, and never its own. Nothing comes after the end, so there the result is `none`.
-/
def serviceLoop (meta_id : NodeId) :
    List (ℕ × MetaServiceConfig) → List (ℕ × ℕ) → Nodes →
      Option (List (ℕ × MetaServiceConfig) × Nodes)
  | it, [], nodes => some (it, nodes)
  | [], _ :: _, _ => none
  | _ :: it, svc :: svcs, nodes =>
    serviceLoop meta_id it (svc :: svcs) (addTarget (service_node_id svc.1 svc.2) meta_id nodes)

theorem serviceLoop_length {meta_id : NodeId} {it it' : List (ℕ × MetaServiceConfig)}
    {svcs : List (ℕ × ℕ)} {nodes nodes' : Nodes}
    (h : serviceLoop meta_id it svcs nodes = some (it', nodes')) : it'.length ≤ it.length := by
  induction it generalizing nodes with
  | nil =>
    cases svcs with
    | nil =>
      obtain ⟨rfl, -⟩ := Prod.mk.inj (Option.some.inj h)
      exact Nat.le_refl _
    | cons svc svcs => exact absurd h nofun
  | cons e it ih =>
    cases svcs with
    | nil =>
      obtain ⟨rfl, -⟩ := Prod.mk.inj (Option.some.inj h)
      exact Nat.le_refl _
    | cons svc svcs => exact Nat.le_succ_of_le (ih h)

/-- The loop over the meta-services. -/
def metaLoop : List (ℕ × MetaServiceConfig) → Nodes → Option Nodes
  | [], nodes => some nodes
  | (id, m) :: it, nodes =>
    let meta_id := meta_node_id id
    match _h : serviceLoop meta_id ((id, m) :: it) m.services
        (addTarget meta_id (service_node_id m.host_id m.service_id) nodes) with
    | none => none
    | some (it', nodes) => metaLoop it'.tail nodes
termination_by it => it.length
decreasing_by
  have hlength := serviceLoop_length _h
  rw [List.length_tail]
  simp only [List.length_cons] at hlength ⊢
  omega

def addBa (nodes : Nodes) (e : ℕ × BaConfig) : Nodes :=
  addTarget (ba_node_id e.1) (service_node_id e.2.host_id e.2.service_id) nodes

def addBoolExp (env : Env) (nodes : Nodes) (e : ℕ × String) : Nodes :=
  let bool_id := boolexp_node_id e.1
  (services env e.2).foldl (fun nodes svc => addTarget (service_node_id svc.1 svc.2) bool_id nodes)
    (touch bool_id nodes)

section Kpi

variable {V : Type}

/-- The node of what a KPI watches. -/
def source_node_id (cfg : KpiConfig V) : Option NodeId :=
  if cfg.is_ba then some (ba_node_id cfg.indicator_ba_id)
  else if cfg.is_meta then some (meta_node_id cfg.meta_id)
  else if cfg.is_boolexp then some (boolexp_node_id cfg.boolexp_id)
  else if cfg.is_service then some (service_node_id cfg.host_id cfg.service_id)
  else none

def addKpi (nodes : Nodes) (e : ℕ × KpiConfig V) : Nodes :=
  let kpi_id := kpi_node_id e.1
  let nodes := addTarget kpi_id (ba_node_id e.2.ba_id) nodes
  match source_node_id e.2 with
  | some node_id => addTarget node_id kpi_id nodes
  | none => nodes

/-- The graph that `_circular_check` builds, if it comes to an end. -/
def buildNodes (env : Env) (my_state : State V) : Option Nodes :=
  (metaLoop my_state.meta_services (my_state.bas.foldl addBa ∅)).map fun nodes =>
    my_state.kpis.foldl addKpi (my_state.bool_exps.foldl (addBoolExp env) nodes)

/-- The visits of all nodes, in some order. -/
def checkNodes (nodes : Nodes) (order : List NodeId) : DepthFirst.Outcome NodeId :=
  DepthFirst.search (fun n => nodes.lookup n) (nodes.keys.length + 1) order

end Kpi

end CentreonBroker.Bam.CircularCheck
