import Mathlib

/-!
# Business activities

A BA keeps what each of its KPIs last told it, and totals over all of them that `_apply_impact`
and `_unapply_impact` keep up to date. The totals of the hard states and of the soft states
are treated alike: a `Totals` is one of the two.

Numbers are exact. The narrowing of a `double` to a `float` is a parameter. Times, and the
events that `visit` writes, are left out: the totals do not depend on them.
-/

namespace CentreonBroker.Bam

/-- `impact_values::state`, a `short`. A service that was never checked is `pending`, which none of
the `ba::state` stands for. -/
inductive State where
  | ok
  | warning
  | critical
  | unknown
  | pending
  deriving DecidableEq, Repr

/-- `configuration::ba::state_source`, `other` for a number of the database that is none. -/
inductive StateSource where
  | impact
  | best
  | worst
  | ratio_percent
  | ratio_number
  | other
  deriving DecidableEq, Repr

/-- `configuration::ba::downtime_behaviour`. -/
inductive DowntimeBehaviour where
  | dt_ignore
  | dt_inherit
  | dt_ignore_kpi
  deriving DecidableEq, Repr

/-- `impact_values`. Its `operator==` compares all four. -/
structure ImpactValues where
  acknowledgement : ℚ
  downtime : ℚ
  nominal : ℚ
  state : State
  deriving DecidableEq

/-- `ba::impact_info`: what a KPI answers to `impact_hard`, `impact_soft`, `in_downtime`. -/
structure ImpactInfo where
  hard_impact : ImpactValues
  soft_impact : ImpactValues
  in_downtime : Bool
  deriving DecidableEq

/-- The members of `ba` that its configuration sets. -/
structure Config where
  state_source : StateSource
  dt_behaviour : DowntimeBehaviour
  level_critical : ℚ
  level_warning : ℚ
  valid : Bool

/-- The totals over the hard impacts, or over the soft ones. -/
structure Totals where
  acknowledgement : ℚ
  downtime : ℚ
  level : ℚ
  computed_state : State
  num_critical_childs : ℕ

/-- The members of `ba`, with `K` for a pointer to a KPI. -/
structure Ba (K : Type) where
  config : Config
  hard : Totals
  soft : Totals
  recompute_count : ℕ
  impacts : AList (fun _ : K => ImpactInfo)

/-! ## One impact -/

/-- `is_state_worse`. Nothing is worse than `pending`, which only OK turns into. -/
def is_state_worse : State → State → Bool
  | .ok, new_state => new_state ≠ .ok
  | .warning, .critical => true
  | .unknown, .warning => true
  | .unknown, .critical => true
  | _, _ => false

/-- `is_state_better`. Nothing is better than `pending`, which only CRITICAL turns into. -/
def is_state_better : State → State → Bool
  | .critical, new_state => new_state ≠ .critical
  | .unknown, .ok => true
  | .warning, .ok => true
  | .warning, .unknown => true
  | _, _ => false

/-- `_dt_behaviour == dt_ignore_kpi && impact.in_downtime`. -/
def ignored (c : Config) (in_downtime : Bool) : Bool :=
  c.dt_behaviour = .dt_ignore_kpi ∧ in_downtime

namespace Totals

/-- What the constructor sets. -/
def init : Totals := ⟨0, 0, 100, .ok, 0⟩

/-- The end of `_apply_impact`, on the state of an impact that counts. -/
def applyState (c : Config) (s : State) (t : Totals) : Totals :=
  match c.state_source with
  | .best =>
    { t with computed_state := if is_state_better t.computed_state s then s else t.computed_state }
  | .worst =>
    { t with computed_state := if is_state_worse t.computed_state s then s else t.computed_state }
  | .ratio_number | .ratio_percent =>
    { t with
      num_critical_childs := if s = .critical then t.num_critical_childs + 1
        else t.num_critical_childs }
  | .impact | .other => t

/-- `_apply_impact`. -/
def apply (c : Config) (in_downtime : Bool) (i : ImpactValues) (t : Totals) : Totals :=
  let t := { t with
    acknowledgement := t.acknowledgement + i.acknowledgement
    downtime := t.downtime + i.downtime }
  if ignored c in_downtime then t
  else applyState c i.state { t with level := t.level - i.nominal }

/-- The first branch of `_unapply_impact`, behind the recomputation. -/
def unapply (c : Config) (in_downtime : Bool) (i : ImpactValues) (t : Totals) : Totals :=
  let t := { t with
    acknowledgement := t.acknowledgement - i.acknowledgement
    downtime := t.downtime - i.downtime }
  if ignored c in_downtime then t
  else { t with level := t.level + i.nominal }

/-- How the other branch of `_unapply_impact` starts. -/
def reset (c : Config) (t : Totals) : Totals :=
  match c.state_source with
  | .best => { t with computed_state := .critical }
  | .worst => { t with computed_state := .ok }
  | .ratio_number | .ratio_percent => { t with num_critical_childs := 0 }
  | .impact | .other => t

/-- How `_recompute` starts. -/
def clear (t : Totals) : Totals :=
  { t with acknowledgement := 0, downtime := 0, level := 100, num_critical_childs := 0 }

end Totals

/-! ## The BA -/

namespace Ba

variable {K : Type} [DecidableEq K]

/-- `_recompute_limit`. -/
def recompute_limit : ℕ := 100

/-- A new BA, once its configuration is set. -/
def init (c : Config) : Ba K := ⟨c, .init, .init, 0, ∅⟩

/-- `_apply_impact`, on both totals. -/
def apply_impact (i : ImpactInfo) (b : Ba K) : Ba K :=
  { b with
    hard := b.hard.apply b.config i.in_downtime i.hard_impact
    soft := b.soft.apply b.config i.in_downtime i.soft_impact }

/-- The loops over `_impacts`. The order of an `unordered_map` is unspecified: here the entries that
changed last are applied last. -/
def applyAll (impacts : List (Sigma fun _ : K => ImpactInfo)) (b : Ba K) : Ba K :=
  impacts.foldr (fun e b => apply_impact e.2 b) b

/-- `_recompute`. -/
def recompute (b : Ba K) : Ba K :=
  { applyAll b.impacts.entries { b with hard := b.hard.clear, soft := b.soft.clear } with
    recompute_count := 0 }

/-- `_unapply_impact`. -/
def unapply_impact (k : K) (i : ImpactInfo) (b : Ba K) : Ba K :=
  if b.config.state_source = .impact then
    let b := { b with recompute_count := b.recompute_count + 1 }
    let b := if b.recompute_count ≥ recompute_limit then recompute b else b
    { b with
      hard := b.hard.unapply b.config i.in_downtime i.hard_impact
      soft := b.soft.unapply b.config i.in_downtime i.soft_impact }
  else
    applyAll (b.impacts.entries.filter fun e => e.1 ≠ k)
      { b with hard := b.hard.reset b.config, soft := b.soft.reset b.config }

/-- `add_impact`, for a KPI that answers `i`. -/
def add_impact (k : K) (i : ImpactInfo) (b : Ba K) : Ba K :=
  if k ∈ b.impacts then b
  else apply_impact i { b with impacts := b.impacts.insert k i }

/-- `child_has_update`, for a KPI that answers `i`, and whether the BA changed. -/
def child_has_update (k : K) (i : ImpactInfo) (b : Ba K) : Bool × Ba K :=
  match b.impacts.lookup k with
  | none => (true, b)
  | some old =>
    if old = i then (false, b)
    else
      let b := unapply_impact k old b
      (true, apply_impact i { b with impacts := b.impacts.insert k i })

/-- `remove_impact`. -/
def remove_impact (k : K) (b : Ba K) : Ba K :=
  match b.impacts.lookup k with
  | none => b
  | some i =>
    let b := unapply_impact k i b
    { b with impacts := b.impacts.erase k }

/-! ### The states -/

/-- `>=` of two floats, the first of which may be the NaN of 0 / 0. -/
def atLeast (num : Option ℚ) (level : ℚ) : Bool := num.any (level ≤ ·)

/-- `update_state`. -/
def update_state (num_critical : Option ℚ) (level_crit level_warning : ℚ) : State :=
  if atLeast num_critical level_crit then .critical
  else if atLeast num_critical level_warning then .warning
  else .ok

/-- `(num / size) * 100` in floats. -/
def percent (fl : ℚ → ℚ) (num size : ℕ) : Option ℚ :=
  if size = 0 then none else some (fl (fl (num / size) * 100))

/-- `_every_kpi_in_dt`, without a look for states. It asks the KPIs, not the entries. -/
def every_kpi_in_dt (in_downtime : K → Bool) (b : Ba K) : Bool :=
  !b.impacts.keys.isEmpty && b.impacts.keys.all in_downtime

/-- The parts that `get_state_hard` and `get_state_soft` share. -/
def state (fl : ℚ → ℚ) (t : Totals) (b : Ba K) : State :=
  match b.config.state_source with
  | .impact =>
    if !b.config.valid then .unknown
    else if t.level ≤ b.config.level_critical then .critical
    else if t.level ≤ b.config.level_warning then .warning
    else .ok
  | .best | .worst => t.computed_state
  | .ratio_number =>
    update_state (some t.num_critical_childs) (fl b.config.level_critical)
      (fl b.config.level_warning)
  | .ratio_percent =>
    update_state (percent fl t.num_critical_childs b.impacts.keys.length)
      (fl b.config.level_critical) (fl b.config.level_warning)
  | .other => .unknown

def get_state_hard (fl : ℚ → ℚ) (in_downtime : K → Bool) (b : Ba K) : State :=
  if (b.config.state_source = .best ∨ b.config.state_source = .worst) ∧
      b.config.dt_behaviour = .dt_ignore_kpi ∧ every_kpi_in_dt in_downtime b then .ok
  else state fl b.hard b

def get_state_soft (fl : ℚ → ℚ) (b : Ba K) : State := state fl b.soft b

end Ba

/-! ## Runs -/

/-- A BA among KPIs, with what each of them answers now. -/
structure World (K : Type) where
  report : K → ImpactInfo
  ba : Ba K

/-- The calls. `child_has_update` comes with what the KPI answers from then on. -/
inductive BaOp (K : Type) where
  | add_impact (k : K)
  | child_has_update (k : K) (i : ImpactInfo)
  | remove_impact (k : K)

namespace World

variable {K : Type} [DecidableEq K]

def step (w : World K) : BaOp K → World K
  | .add_impact k => { w with ba := w.ba.add_impact k (w.report k) }
  | .child_has_update k i => ⟨Function.update w.report k i, (w.ba.child_has_update k i).2⟩
  | .remove_impact k => { w with ba := w.ba.remove_impact k }

def run (w : World K) (ops : List (BaOp K)) : World K := ops.foldl step w

/-- A new BA, and KPIs that answer anything. -/
def start (c : Config) (report : K → ImpactInfo) : World K := ⟨report, .init c⟩

/-- The KPIs that are attached. -/
def attached (w : World K) : Finset K := w.ba.impacts.keys.toFinset

/-- Those of them that are not ignored because of a downtime. -/
def considered (w : World K) : Finset K :=
  w.attached.filter fun k => !ignored w.ba.config (w.report k).in_downtime

end World

end CentreonBroker.Bam
