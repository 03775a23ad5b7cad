import Mathlib.Data.Int.Notation
import Mathlib.Data.Nat.Notation
import Mathlib.Logic.Function.Basic

/-!
# Creating RRD files

A file is created by `rrd_create_r`, or copied from a template: the first file that was made
with the same length, step and type. What `rrd_create_r` is given is all there is to a file,
the time it starts from included, which is none of what a template is looked up by.
-/

namespace CentreonBroker.Rrd.Creator

/-- `creator::tmpl_info`. -/
structure TmplInfo where
  length : UInt32
  step : UInt32
  value_type : Int16
  deriving DecidableEq

/-- A file, as `rrd_create_r` was called for it: the start, and the data source and archives. -/
structure Definition where
  from_time : ℤ
  argv : List String
  deriving DecidableEq

/-- An update that `rrd_update_r` accepts of a file that has none: it is after the start. -/
def Definition.Accepts (d : Definition) (time : ℤ) : Prop := d.from_time < time

/-- The name of `perfdata::absolute`, `counter` and `derive` in a data source, and of the rest. -/
def typeName (value_type : Int16) : String :=
  if value_type = 3 then "ABSOLUTE"
  else if value_type = 1 then "COUNTER"
  else if value_type = 2 then "DERIVE"
  else "GAUGE"

/-- `_open`. -/
def definitionOf (info : TmplInfo) (from_time : ℤ) : Definition where
  from_time := from_time
  argv :=
    let ds := "DS:value:" ++ typeName info.value_type ++ ":" ++
      toString (info.step * 10).toNat ++ ":U:U"
    let rra1 := "RRA:AVERAGE:0.5:" ++ toString info.step.toNat ++ ":" ++
      toString (info.length / info.step + 1).toNat
    let rra2 := "RRA:AVERAGE:0.5:3600:" ++ toString (info.length / 3600 + 1).toNat
    if info.step < 3600 then [ds, rra1, rra2] else [ds, rra1]

/-- The calls of `create` that may throw. -/
inductive Call where
  | rrd_create
  /-- `stat` or `open` on a new template. -/
  | template
  | duplicate
  deriving DecidableEq

/-- `_fds`, each descriptor with the file it is open on, and the files by their names. -/
structure State where
  fds : List (TmplInfo × Definition)
  files : String → Option Definition

def State.init : State := ⟨[], fun _ => none⟩

/-- The arguments of `create`, and the call that throws, if there is one. -/
structure Request where
  filename : String
  length : UInt32
  from_time : ℤ
  step : UInt32
  value_type : Int16
  failing : Option Call
  deriving DecidableEq

/-- The key of a template: five minutes and one month are the defaults. -/
def Request.info (r : Request) : TmplInfo where
  length := if r.length = 0 then 31 * 24 * 60 * 60 else r.length
  step := if r.step = 0 then 5 * 60 else r.step
  value_type := r.value_type

/-- A file that could not be created is no RRD file. -/
def State.put (r : Request) (d : Option Definition) (s : State) : State :=
  { s with files := Function.update s.files r.filename d }

/-- `_duplicate`, and whether it returns. -/
def duplicate (r : Request) (tmpl : Definition) (s : State) : Bool × State :=
  if r.failing = some .duplicate then (false, s.put r none) else (true, s.put r (some tmpl))

/-- `create`, and whether it returns. -/
def create (cache_size : ℕ) (r : Request) (s : State) : Bool × State :=
  match s.fds.lookup r.info with
  | some tmpl => duplicate r tmpl s
  | none =>
    if s.fds.length < cache_size then
      if r.failing = some .rrd_create ∨ r.failing = some .template then (false, s)
      else
        let tmpl := definitionOf r.info r.from_time
        duplicate r tmpl { s with fds := (r.info, tmpl) :: s.fds }
    -- no more space
    else if r.failing = some .rrd_create then (false, s.put r none)
    else (true, s.put r (some (definitionOf r.info r.from_time)))

def clear (s : State) : State := { s with fds := [] }

inductive Op where
  | create (r : Request)
  | clear
  deriving DecidableEq

def step (cache_size : ℕ) : Op → State → State
  | .create r, s => (create cache_size r s).2
  | .clear, s => clear s

/-! ## Direct creation -/

/-- The file that a creator without templates makes. -/
def direct (r : Request) : Option Definition :=
  (create 0 { r with failing := none } .init).2.files r.filename

/-- A file that is created is the one of direct creation, and takes updates from its start on. -/
def AsDirect (cache_size : ℕ) : Op → State → Prop
  | .create r, s =>
    (create cache_size r s).1 = true → ∃ d, direct r = some d ∧
      (create cache_size r s).2.files r.filename = some d ∧ d.Accepts (r.from_time + 1)
  | .clear, _ => True

/-- A template that is copied starts when the file is to. -/
def SameStart : Op → State → Prop
  | .create r, s =>
    ∀ tmpl, s.fds.lookup r.info = some tmpl → r.failing ≠ some .duplicate →
      tmpl.from_time = r.from_time
  | .clear, _ => True

/-- So it is at each step of a run. -/
def Always (p : Op → State → Prop) (cache_size : ℕ) : List Op → State → Prop
  | [], _ => True
  | op :: ops, s => p op s ∧ Always p cache_size ops (step cache_size op s)

/-! ## The templates -/

/-- A template is what its key says, up to its start. -/
def Sound (s : State) : Prop :=
  ∀ info tmpl, s.fds.lookup info = some tmpl → tmpl = definitionOf info tmpl.from_time

theorem sound_init : Sound .init := by
  intro info tmpl h
  cases h

theorem direct_eq (r : Request) : direct r = some (definitionOf r.info r.from_time) := by
  rw [direct]
  show Function.update _ r.filename _ r.filename = _
  rw [Function.update_self]
  rfl

theorem fds_duplicate (r : Request) (tmpl : Definition) (s : State) :
    (duplicate r tmpl s).2.fds = s.fds := by
  rw [duplicate]
  split
  · rfl
  · rfl

/-- A copy that is made is one of the template. -/
theorem duplicate_spec (r : Request) (tmpl : Definition) (s : State) :
    ((duplicate r tmpl s).1 = true ↔ r.failing ≠ some .duplicate) ∧
      ((duplicate r tmpl s).1 = true → (duplicate r tmpl s).2.files r.filename = some tmpl) := by
  rw [duplicate]
  split
  · rename_i hfails
    exact ⟨⟨nofun, fun h => absurd hfails h⟩, nofun⟩
  · rename_i hfails
    exact ⟨⟨fun _ => hfails, fun _ => rfl⟩, fun _ => Function.update_self _ _ _⟩

/-- Where no template is found, what is created is what was asked for. -/
theorem create_miss {cache_size : ℕ} {r : Request} {s : State} (h : s.fds.lookup r.info = none)
    (hreturns : (create cache_size r s).1 = true) :
    (create cache_size r s).2.files r.filename = some (definitionOf r.info r.from_time) := by
  revert hreturns
  rw [create, h]
  dsimp only
  split
  · split
    · nofun
    · exact (duplicate_spec r _ _).2
  · split
    · nofun
    · exact fun _ => Function.update_self _ _ _

theorem Sound.step {s : State} (h : Sound s) (cache_size : ℕ) (op : Op) :
    Sound (step cache_size op s) := by
  cases op with
  | clear =>
    intro info tmpl hfound
    cases hfound
  | create r =>
    show Sound (create cache_size r s).2
    rw [create]
    cases hfound : s.fds.lookup r.info with
    | some tmpl =>
      dsimp only
      intro info tmpl' hlookup
      rw [fds_duplicate] at hlookup
      exact h info tmpl' hlookup
    | none =>
      dsimp only
      split
      · split
        · exact h
        · -- the new template is the file that was asked for
          intro info tmpl' hlookup
          rw [fds_duplicate, List.lookup_cons] at hlookup
          split at hlookup
          · rename_i heq
            rw [← Option.some.inj hlookup, eq_of_beq heq]
            rfl
          · exact h info tmpl' hlookup
      · split
        · exact h
        · exact h

/-- **One call.** Only a template with another start makes a difference. -/
theorem asDirect_iff {s : State} (h : Sound s) (cache_size : ℕ) (op : Op) :
    AsDirect cache_size op s ↔ SameStart op s := by
  cases op with
  | clear => exact Iff.rfl
  | create r =>
    have haccepts : (definitionOf r.info r.from_time).Accepts (r.from_time + 1) := by
      show r.from_time < r.from_time + 1
      omega
    cases hfound : s.fds.lookup r.info with
    | none =>
      constructor
      · intro _ tmpl hlookup
        rw [hfound] at hlookup
        cases hlookup
      · intro _ hreturns
        exact ⟨_, direct_eq r, create_miss hfound hreturns, haccepts⟩
    | some tmpl =>
      have hcreate : create cache_size r s = duplicate r tmpl s := by rw [create, hfound]
      obtain ⟨hreturns, hcopy⟩ := duplicate_spec r tmpl s
      constructor
      · intro hdirect tmpl' hlookup hfails
        obtain rfl : tmpl = tmpl' := Option.some.inj (hfound.symm.trans hlookup)
        rw [AsDirect, hcreate] at hdirect
        obtain ⟨d, hd, hfile, -⟩ := hdirect (hreturns.mpr hfails)
        rw [hcopy (hreturns.mpr hfails)] at hfile
        rw [direct_eq] at hd
        have heq : tmpl = definitionOf r.info r.from_time :=
          Option.some.inj (hfile.trans hd.symm)
        rw [heq]
        rfl
      · intro hsame
        rw [AsDirect, hcreate]
        intro hdone
        have hstart := hsame tmpl hfound (hreturns.mp hdone)
        refine ⟨_, direct_eq r, ?_, haccepts⟩
        rw [hcopy hdone, h r.info tmpl hfound, hstart]

/--
**A creator with templates makes the files of direct creation as long as each template that
it copies was made for the same start.**
-/
theorem always_asDirect_iff (cache_size : ℕ) (ops : List Op) :
    Always (AsDirect cache_size) cache_size ops .init ↔ Always SameStart cache_size ops .init := by
  have hrun : ∀ s, Sound s →
      (Always (AsDirect cache_size) cache_size ops s ↔ Always SameStart cache_size ops s) := by
    induction ops with
    | nil => exact fun _ _ => Iff.rfl
    | cons op ops ih =>
      intro s hs
      rw [Always, Always, asDirect_iff hs, ih _ (hs.step cache_size op)]
  exact hrun .init sound_init

/-- A graph, then the rebuild of another one, from ten weeks before. -/
def rebuildBefore : List Op :=
  [.create ⟨"1.rrd", 0, 1600000000, 0, 0, none⟩, .create ⟨"2.rrd", 0, 1594000000, 0, 0, none⟩]

/-- **The rebuilt graph starts when the other one does**, and takes no update before. -/
theorem not_always_asDirect : ¬Always (AsDirect 1) 1 rebuildBefore .init := by
  intro h
  have hsame := (asDirect_iff (sound_init.step 1 _) 1 _).mp h.2.1
  have hstart := hsame (definitionOf ⟨2678400, 300, 0⟩ 1600000000) rfl nofun
  exact absurd hstart (by decide)

end CentreonBroker.Rrd.Creator
