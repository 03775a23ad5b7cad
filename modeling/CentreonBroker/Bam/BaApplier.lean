import CentreonBroker.Bam.Applier
import CentreonBroker.Bam.BaState

/-!
# The BA applier

What `applier::ba::apply` makes of the BAs in memory: it deletes those that the configuration
has no more, creates those it had not, and copies some of the members of the configurations
that changed into the objects that are there.

An object is a number that no other object ever has. The opened event of a configuration is
only compared, and the KPIs of a BA are numbers. The virtual hosts and services that are
published are left out.
-/

namespace CentreonBroker.Bam.BaApplier

open Applier (Applied)

variable {E : Type}

/-- `configuration::ba`, with all that its `operator==` compares but the id, which is its key. -/
structure BaConfig (E : Type) where
  host_id : ℕ
  service_id : ℕ
  name : String
  state_source : StateSource
  warning_level : ℚ
  critical_level : ℚ
  event : E
  dt_behaviour : DowntimeBehaviour
  deriving DecidableEq

/-- `bam::ba`, with the members that its configuration sets, its totals and impacts. -/
structure BaObject where
  id : ℕ
  host_id : ℕ
  service_id : ℕ
  name : String
  ba : Ba ℕ

/-- What `_applied` holds, the objects by their numbers, and the service book. -/
structure World (E : Type) where
  next : ℕ
  applied : AList (fun _ : ℕ => Applied (BaConfig E))
  objects : ℕ → BaObject
  book : List ((ℕ × ℕ) × ℕ)

abbrev Configs (E : Type) := AList (fun _ : ℕ => BaConfig E)

namespace World

/-- Nothing applied yet. -/
def init : World E :=
  ⟨0, ∅, fun _ => ⟨0, 0, 0, "", .init ⟨.impact, .dt_ignore, 0, 0, true⟩⟩, []⟩

/-- `_new_ba`, less the book. -/
def newBa (id : ℕ) (cfg : BaConfig E) : BaObject where
  id := id
  host_id := cfg.host_id
  service_id := cfg.service_id
  name := cfg.name
  ba := .init ⟨cfg.state_source, cfg.dt_behaviour, cfg.critical_level, cfg.warning_level, true⟩

/-- One turn of the loop that deletes. -/
def deleteBa (e : Sigma fun _ : ℕ => Applied (BaConfig E)) (w : World E) : World E :=
  { w with
    book := w.book.erase ((e.2.cfg.host_id, e.2.cfg.service_id), e.2.obj)
    applied := w.applied.erase e.1 }

/-- One turn of the loop that creates. -/
def createBa (e : Sigma fun _ : ℕ => BaConfig E) (w : World E) : World E where
  next := w.next + 1
  applied := w.applied.insert e.1 ⟨e.2, w.next⟩
  objects := Function.update w.objects w.next (newBa e.1 e.2)
  book := w.book ++ [((e.2.host_id, e.2.service_id), w.next)]

/-- The four members that are copied into an object. -/
def modified (cfg : BaConfig E) (o : BaObject) : BaObject :=
  { o with
    name := cfg.name
    ba := { o.ba with config := { o.ba.config with
      state_source := cfg.state_source
      level_warning := cfg.warning_level
      level_critical := cfg.critical_level } } }

/-- One turn of the loop that modifies. -/
def modifyBa (e : Sigma fun _ : ℕ => BaConfig E) (w : World E) : World E :=
  match w.applied.lookup e.1 with
  | some a =>
    { w with
      applied := w.applied.insert e.1 ⟨e.2, a.obj⟩
      objects := Function.update w.objects a.obj (modified e.2 (w.objects a.obj)) }
  | none => w

/-- `set_valid(true)`. -/
def validated (o : BaObject) : BaObject :=
  { o with ba := { o.ba with config := { o.ba.config with valid := true } } }

/-- The last loop of `apply`. -/
def validateAll (w : World E) : World E :=
  { w with objects := fun p =>
      if w.applied.entries.any fun e => e.2.obj = p then validated (w.objects p)
      else w.objects p }

/-- The items that remain in `to_delete`. -/
def toDelete (cfgs : Configs E) (w : World E) : List (Sigma fun _ : ℕ => Applied (BaConfig E)) :=
  w.applied.entries.filter fun e => e.1 ∉ cfgs

/-- The items that remain in `to_create`. -/
def toCreate (cfgs : Configs E) (w : World E) : List (Sigma fun _ : ℕ => BaConfig E) :=
  cfgs.entries.filter fun e => e.1 ∉ w.applied

variable [DecidableEq E]

/-- `to_modify`. -/
def toModify (cfgs : Configs E) (w : World E) : List (Sigma fun _ : ℕ => BaConfig E) :=
  cfgs.entries.filter fun e => (w.applied.lookup e.1).any fun a => a.cfg ≠ e.2

/-- `apply`. -/
def apply (cfgs : Configs E) (w : World E) : World E :=
  let create := toCreate cfgs w
  let modify := toModify cfgs w
  let w := (toDelete cfgs w).foldl (fun w e => deleteBa e w) w
  let w := create.foldl (fun w e => createBa e w) w
  let w := modify.foldl (fun w e => modifyBa e w) w
  validateAll w

end World

/-! ## Impacts -/

/-- `add_impact` of some KPIs, with what they answer. -/
def BaObject.attach (impacts : List (ℕ × ImpactInfo)) (o : BaObject) : BaObject :=
  { o with ba := impacts.foldl (fun b i => b.add_impact i.1 i.2) o.ba }

/-- What the KPI applier adds to the BAs, by their ids. -/
def World.attach (impacts : ℕ → List (ℕ × ImpactInfo)) (w : World E) : World E :=
  { w with objects := fun p => (w.objects p).attach (impacts (w.objects p).id) }

/-! ## What the applier is for -/

/-- An object has the parameters of a configuration. -/
structure HasParameters (cfg : BaConfig E) (o : BaObject) : Prop where
  host_id : o.host_id = cfg.host_id
  service_id : o.service_id = cfg.service_id
  name : o.name = cfg.name
  state_source : o.ba.config.state_source = cfg.state_source
  level_warning : o.ba.config.level_warning = cfg.warning_level
  level_critical : o.ba.config.level_critical = cfg.critical_level
  dt_behaviour : o.ba.config.dt_behaviour = cfg.dt_behaviour

/-- Two BAs report the same states, whichever of the KPIs are in downtime. -/
def SameStates (fl : ℚ → ℚ) (b b' : Ba ℕ) : Prop :=
  (∀ in_downtime, b.get_state_hard fl in_downtime = b'.get_state_hard fl in_downtime) ∧
    b.get_state_soft fl = b'.get_state_soft fl

/--
The objects are those of some configurations: each of these has one, with its parameters and
the states of a new one with the same impacts, and the book leads to it by its ids.
-/
structure Refines (fl : ℚ → ℚ) (cfgs : Configs E) (impacts : ℕ → List (ℕ × ImpactInfo))
    (w : World E) : Prop where
  ids : ∀ id, id ∈ w.applied ↔ id ∈ cfgs
  object : ∀ id cfg, cfgs.lookup id = some cfg → ∀ a, w.applied.lookup id = some a →
    (w.objects a.obj).id = id ∧ HasParameters cfg (w.objects a.obj) ∧
      SameStates fl (w.objects a.obj).ba ((World.newBa id cfg).attach (impacts id)).ba
  book : ∀ ids p, (ids, p) ∈ w.book ↔ ∃ id cfg a, cfgs.lookup id = some cfg ∧
    w.applied.lookup id = some a ∧ p = a.obj ∧ ids = (cfg.host_id, cfg.service_id)

end CentreonBroker.Bam.BaApplier
