import Mathlib

/-!
# The KPI applier

What the configuration appliers of the BAM module make of the objects in memory when a
configuration is loaded again: they keep the objects whose configuration has not changed,
drop others and create new ones, and then the KPI applier links every KPI it has to its BA
and to what it watches.

An object is its class and a number that no other object of the process ever has. A list of
parents holds weak references: what no applier has any more is gone, and is skipped. Maps
are association lists, as nothing depends on the order of the keys. The other fields of
the configurations are of a type `V`.
-/

namespace CentreonBroker.Bam.Applier

/-! ## Configuration -/

/-- What a KPI can watch, besides a service. -/
inductive Kind where
  | ba
  | meta_service
  | bool_expression
  deriving DecidableEq, Repr

/-- `configuration::kpi`, with all that its `operator==` compares. -/
structure KpiConfig (V : Type) where
  host_id : ℕ
  service_id : ℕ
  ba_id : ℕ
  indicator_ba_id : ℕ
  meta_id : ℕ
  boolexp_id : ℕ
  values : V
  deriving DecidableEq

namespace KpiConfig

variable {V : Type}

def is_service (c : KpiConfig V) : Bool := c.service_id ≠ 0

def is_ba (c : KpiConfig V) : Bool := c.indicator_ba_id ≠ 0

def is_meta (c : KpiConfig V) : Bool := c.meta_id ≠ 0

def is_boolexp (c : KpiConfig V) : Bool := c.boolexp_id ≠ 0

/-- The source that `_resolve_kpi` looks for, in the order of its tests. -/
def source (c : KpiConfig V) : Option (Kind × ℕ) :=
  if c.is_ba then some (.ba, c.indicator_ba_id)
  else if c.is_meta then some (.meta_service, c.meta_id)
  else if c.is_boolexp then some (.bool_expression, c.boolexp_id)
  else none

end KpiConfig

/-- `configuration::state`. Expressions that cannot be built are not part of it. -/
structure Config (V : Type) where
  targets : Kind → AList (fun _ : ℕ => V)
  kpis : AList (fun _ : ℕ => KpiConfig V)
  activated : ℕ → ℕ → Bool

/-! ## Objects -/

/-- An object, by its class. -/
inductive Obj where
  | target (kind : Kind) (serial : ℕ)
  | kpi (serial : ℕ)
  deriving DecidableEq, Repr

/-- `applied`: a configuration and the serial of its object. -/
structure Applied (C : Type) where
  cfg : C
  obj : ℕ

/-- The objects, and what the appliers and the service book have. -/
structure World (V : Type) where
  next : ℕ
  targets : Kind → AList (fun _ : ℕ => Applied V)
  kpis : AList (fun _ : ℕ => Applied (KpiConfig V))
  parents : Obj → List Obj
  link : ℕ → Option Obj
  impacts : ℕ → Finset ℕ
  book : List ((ℕ × ℕ) × ℕ)

namespace World

variable {V : Type}

/-- Nothing applied yet. -/
def init : World V := ⟨0, fun _ => ∅, ∅, fun _ => [], fun _ => none, fun _ => ∅, []⟩

/-- `find_ba`, `find_meta`, `find_boolexp`. -/
def find (w : World V) (kind : Kind) (id : ℕ) : Option ℕ :=
  ((w.targets kind).lookup id).map Applied.obj

/-- `computable::add_parent`. -/
def addParent (child parent : Obj) (w : World V) : World V :=
  { w with parents := Function.update w.parents child (w.parents child ++ [parent]) }

/-- `ba::add_impact`. -/
def addImpact (ba kpi : ℕ) (w : World V) : World V :=
  { w with impacts := Function.update w.impacts ba (insert kpi (w.impacts ba)) }

/-- `ba::remove_impact`. -/
def removeImpact (ba kpi : ℕ) (w : World V) : World V :=
  { w with impacts := Function.update w.impacts ba ((w.impacts ba).erase kpi) }

/-! ## The appliers of BAs, meta-services and boolean expressions -/

section Targets

variable [DecidableEq V]

/-- Whether an applier keeps an object whose configuration was `old`. -/
def keeps (kind : Kind) (old new : V) : Bool := kind ≠ .bool_expression ∨ old = new

/-- One entry: the object it is for, and the next number. -/
def applyTarget (kind : Kind) (old : AList (fun _ : ℕ => Applied V)) (id : ℕ) (cfg : V)
    (next : ℕ) : Applied V × ℕ :=
  match old.lookup id with
  | some a => if keeps kind a.cfg cfg then (⟨cfg, a.obj⟩, next) else (⟨cfg, next⟩, next + 1)
  | none => (⟨cfg, next⟩, next + 1)

/-- The entries that `apply` leaves. What the configuration does not have is dropped. -/
def applyTargets (kind : Kind) (old : AList (fun _ : ℕ => Applied V)) :
    List (Sigma fun _ : ℕ => V) → ℕ → AList (fun _ : ℕ => Applied V) × ℕ
  | [], next => (∅, next)
  | e :: entries, next =>
    let (new, next) := applyTargets kind old entries next
    let (a, next) := applyTarget kind old e.1 e.2 next
    (new.insert e.1 a, next)

/-- `apply` of one of the three appliers. -/
def applyKind (kind : Kind) (c : Config V) (w : World V) : World V :=
  let (new, next) := applyTargets kind (w.targets kind) (c.targets kind).entries w.next
  { w with targets := Function.update w.targets kind new, next := next }

end Targets

/-! ## The applier of KPIs -/

/-- `_remove_kpi`. -/
def removeKpi (id : ℕ) (w : World V) : World V :=
  match w.kpis.lookup id with
  | none => w
  | some a =>
    let w := if a.cfg.is_service then
        { w with book := w.book.erase ((a.cfg.host_id, a.cfg.service_id), a.obj) }
      else w
    let w := match w.find .ba a.cfg.ba_id with
      | some ba => removeImpact ba a.obj w
      | none => w
    { w with kpis := w.kpis.erase id }

/-- `_invalidate_ba`. -/
def invalidateBa (cfg : KpiConfig V) (w : World V) : World V :=
  (w.kpis.entries.filter fun e => e.2.cfg.ba_id = cfg.ba_id).foldl (fun w e => removeKpi e.1 w) w

/-- `_new_kpi`. It throws if the KPI is of no type. -/
def newKpi (cfg : KpiConfig V) (w : World V) : Option (ℕ × World V) :=
  if cfg.is_service then
    some (w.next, { w with
      next := w.next + 1
      book := w.book ++ [((cfg.host_id, cfg.service_id), w.next)] })
  else if cfg.is_ba ∨ cfg.is_meta ∨ cfg.is_boolexp then
    some (w.next, { w with next := w.next + 1 })
  else none

/-- One turn of the loop that creates. -/
def createKpi (activated : ℕ → ℕ → Bool) (id : ℕ) (cfg : KpiConfig V) (w : World V) : World V :=
  if !activated cfg.host_id cfg.service_id then w
  else
    match newKpi cfg w with
    | some (obj, w) => { w with kpis := w.kpis.insert id ⟨cfg, obj⟩ }
    | none => invalidateBa cfg w

/-- `_resolve_kpi`. It throws if the BA or the source is not there. -/
def resolveKpi (cfg : KpiConfig V) (kpi : ℕ) (w : World V) : Option (World V) :=
  match w.find .ba cfg.ba_id with
  | none => none
  | some ba =>
    let linked := match cfg.source with
      | none => some w
      | some (kind, id) =>
        (w.find kind id).map fun obj =>
          addParent (.target kind obj) (.kpi kpi)
            { w with link := Function.update w.link kpi (some (.target kind obj)) }
    linked.map fun w => addParent (.kpi kpi) (.target .ba ba) (addImpact ba kpi w)

/-- The loop that resolves, up to the first KPI that throws. -/
def resolvePass : List (Sigma fun _ : ℕ => Applied (KpiConfig V)) → World V →
    World V × Option (KpiConfig V)
  | [], w => (w, none)
  | e :: entries, w =>
    match resolveKpi e.2.cfg e.2.obj w with
    | some w => resolvePass entries w
    | none => (w, some e.2.cfg)

/--
The whole loop: after a KPI that throws it starts again. Each time it does, the KPIs of a
BA are gone, so there are no more turns than KPIs.
-/
def resolve : ℕ → World V → World V
  | 0, w => w
  | turns + 1, w =>
    match resolvePass w.kpis.entries w with
    | (w, none) => w
    | (w, some cfg) => resolve turns (invalidateBa cfg w)

variable [DecidableEq V]

/-- The KPIs to delete: those that the configuration has not, or has otherwise. -/
def toDelete (kpis : AList (fun _ : ℕ => KpiConfig V)) (w : World V) :
    List (Sigma fun _ : ℕ => Applied (KpiConfig V)) :=
  w.kpis.entries.filter fun e => kpis.lookup e.1 ≠ some e.2.cfg

/-- The KPIs to create. -/
def toCreate (kpis : AList (fun _ : ℕ => KpiConfig V)) (w : World V) :
    List (Sigma fun _ : ℕ => KpiConfig V) :=
  kpis.entries.filter fun e => (w.kpis.lookup e.1).map Applied.cfg ≠ some e.2

/-- `apply` of the KPI applier. -/
def applyKpis (c : Config V) (w : World V) : World V :=
  let create := toCreate c.kpis w
  let w := (toDelete c.kpis w).foldl (fun w e => removeKpi e.1 w) w
  let w := create.foldl (fun w e => createKpi c.activated e.1 e.2 w) w
  resolve (w.kpis.entries.length + 1) w

/-- `applier::state::apply`, behind its check. -/
def apply (c : Config V) (w : World V) : World V :=
  applyKpis c (applyKind .bool_expression c (applyKind .meta_service c (applyKind .ba c w)))

end World

end CentreonBroker.Bam.Applier
