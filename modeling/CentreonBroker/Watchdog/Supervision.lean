import CentreonBroker.Watchdog.Instance

/-!
# The children of the watchdog

Whatever is reloaded, and whichever children exit, the children are those of the instances that are
to run, one for each. It is an invariant of every step that the programs of the children are those
of the started instances, as often: what is deleted takes its own child away, what is created has
one that no other instance has, and a child that was waited for is that of one instance, which gets
a new one.
-/

namespace CentreonBroker.Watchdog

open World Keyed

/-- The kernel gives a pid that no child has. -/
def Fresh (kernel : ℕ → List ℕ → ℕ) : Prop := ∀ n pids, 0 < kernel n pids ∧ kernel n pids ∉ pids

/-- A pid, and what is executed under it. -/
def Child.program (c : Child) : ℕ × String × String := (c.pid, c.executable, c.config_file)

namespace Instance

def program (i : Instance) : ℕ × String × String := (i.pid, i.config.command)

/-- The program of an instance that is started. -/
def own (i : Instance) : List (ℕ × String × String) := if i.started then [i.program] else []

end Instance

abbrev Entries := Keyed (Prod.fst : String × Instance → String) fun _ => True

/-- The programs of the instances that are started. -/
def programs (entries : List (String × Instance)) : List (ℕ × String × String) :=
  entries.flatMap fun e => e.2.own

/-- The children are those of the instances that are to run. -/
structure Supervised (w : World) : Prop where
  children : (w.os.children.values.map Child.program).Perm (programs w.instances.values)
  started : ∀ e ∈ w.instances.values, e.2.started = e.2.config.run
  idle : ∀ e ∈ w.instances.values, e.2.started = false → e.2.pid = 0
  positive : ∀ c ∈ w.os.children.values, 0 < c.pid

variable {kernel : ℕ → List ℕ → ℕ} {w : World} {name : String} {i : Instance}

variable {c : InstanceConfiguration}

theorem same_child_iff {other : InstanceConfiguration} : c.same_child other = true ↔
    c.name = other.name ∧ c.command = other.command ∧ c.run = other.run := by
  simp [InstanceConfiguration.same_child, InstanceConfiguration.command, and_assoc]

/-! ## One instance -/

variable {e : String × Instance}

theorem perm_programs {t : Entries} (h : t.find name = some e) :
    (programs t.values).Perm (e.2.own ++ programs (t.erase name).values) :=
  (perm_of_find h).flatMap_right _

theorem programs_insert (t : Entries) (e : String × Instance) :
    programs (t.insert e trivial).values = programs (t.erase e.1).values ++ e.2.own := by
  show programs (_ ++ [e]) = _
  rw [programs, List.flatMap_append, List.flatMap_singleton]
  rfl

theorem mem_insert {t : Entries} {e' : String × Instance}
    (h : e' ∈ (t.insert e trivial).values) : e' ∈ t.values ∨ e' = e := by
  rcases List.mem_append.mp h with hold | hnew
  · exact .inl (List.mem_of_mem_filter hold)
  · exact .inr (List.mem_singleton.mp hnew)

/-- The child of an instance that is started. -/
theorem Supervised.child (h : Supervised w) (he : e ∈ w.instances.values)
    (hstarted : e.2.started = true) :
    ∃ c, w.os.children.find e.2.pid = some c ∧ c.program = e.2.program := by
  have hown : e.2.program ∈ programs w.instances.values := by
    refine List.mem_flatMap.mpr ⟨e, he, ?_⟩
    rw [Instance.own, if_pos hstarted]
    exact List.mem_singleton_self _
  obtain ⟨c, hc, hprogram⟩ := List.mem_map.mp (h.children.mem_iff.mpr hown)
  exact ⟨c, find_eq_some_iff.mpr ⟨hc, congrArg Prod.fst hprogram⟩, hprogram⟩

/-- No two instances have one child. -/
theorem Supervised.pid_inj (h : Supervised w) {e' : String × Instance}
    (he : e ∈ w.instances.values) (he' : e' ∈ w.instances.values) (hstarted : e.2.started = true)
    (hstarted' : e'.2.started = true) (hpid : e.2.pid = e'.2.pid) : e = e' := by
  have hnodup : ((programs w.instances.values).map Prod.fst).Nodup := by
    refine (h.children.map Prod.fst).nodup_iff.mp ?_
    rw [List.map_map]
    exact w.os.children.nodup
  have hfind : w.instances.find e.1 = some e := find_eq_some_iff.mpr ⟨he, rfl⟩
  by_contra hne
  have hrest : e' ∈ (w.instances.erase e.1).values := by
    have hmem := (perm_of_find hfind).mem_iff.mp he'
    exact (List.mem_cons.mp hmem).resolve_left (Ne.symm hne)
  have hperm := ((perm_programs hfind).map Prod.fst).nodup_iff.mp hnodup
  rw [Instance.own, if_pos hstarted, List.singleton_append, List.map_cons, List.nodup_cons] at hperm
  refine hperm.1 (List.mem_map.mpr ⟨e'.2.program, ?_, hpid.symm⟩)
  refine List.mem_flatMap.mpr ⟨e', hrest, ?_⟩
  rw [Instance.own, if_pos hstarted']
  exact List.mem_singleton_self _

/-- What is left when the child of an instance was waited for, and the instance is not there. -/
theorem Supervised.without (h : Supervised w)
    (hfind : w.instances.find name = some e) (hstarted : e.2.started = true) :
    ((w.os.children.erase e.2.pid).values.map Child.program).Perm
      (programs (w.instances.erase name).values) := by
  obtain ⟨c, hc, hprogram⟩ := h.child (find_eq_some_iff.mp hfind).1 hstarted
  have hchildren := (perm_of_find hc).map Child.program
  have hperm := h.children.trans (perm_programs hfind)
  rw [List.map_cons, hprogram] at hchildren
  rw [Instance.own, if_pos hstarted, List.singleton_append] at hperm
  exact List.Perm.cons_inv (hchildren.symm.trans hperm)

/-! ## Each operation -/

theorem Supervised.delete (h : Supervised w) (name : String) : Supervised (w.delete name) := by
  unfold World.delete
  split
  · exact h
  · rename_i k i hfind
    have hsub : ∀ e ∈ (w.instances.erase name).values, e ∈ w.instances.values :=
      fun e he => List.mem_of_mem_filter he
    refine ⟨?_, fun e he => h.started e (hsub e he), fun e he => h.idle e (hsub e he), ?_⟩
    · show ((i.stop w.os).children.values.map Child.program).Perm _
      cases hstarted : i.started with
      | false =>
        have hperm := h.children.trans (perm_programs hfind)
        rw [Instance.own, hstarted] at hperm
        rw [Instance.stop, hstarted]
        exact hperm
      | true =>
        rw [Instance.stop, if_pos hstarted]
        exact h.without hfind hstarted
    · intro c hc
      refine h.positive c ?_
      revert hc
      show c ∈ (i.stop w.os).children.values → _
      unfold Instance.stop
      split
      · exact fun hc => List.mem_of_mem_filter hc
      · exact id

/-- An instance in the place of another one that has the same process. -/
theorem Supervised.replace (h : Supervised w)
    (hfind : w.instances.find name = some e) {i : Instance} (hown : i.own = e.2.own)
    (hstarted : i.started = i.config.run) (hidle : i.started = false → i.pid = 0) (os : Os)
    (hchildren : os.children = w.os.children) :
    Supervised { w with instances := w.instances.insert (name, i) trivial, os } := by
  refine ⟨?_, fun e' he' => ?_, fun e' he' => ?_, fun c hc => h.positive c (hchildren ▸ hc)⟩
  · show (os.children.values.map Child.program).Perm
      (programs (w.instances.insert (name, i) trivial).values)
    rw [hchildren, programs_insert, hown]
    exact (h.children.trans (perm_programs hfind)).trans List.perm_append_comm
  · rcases mem_insert he' with hold | rfl
    · exact h.started e' hold
    · exact hstarted
  · rcases mem_insert he' with hold | rfl
    · exact h.idle e' hold
    · exact hidle

theorem merge_configuration_spec (new_config : InstanceConfiguration) (i : Instance) :
    (i.merge_configuration new_config).own = i.own ∧
      (i.merge_configuration new_config).started = i.started ∧
      (i.merge_configuration new_config).pid = i.pid ∧
      (i.merge_configuration new_config).config.run = i.config.run := by
  unfold Instance.merge_configuration
  split
  · rename_i hsame
    obtain ⟨-, hcommand, hrun⟩ := same_child_iff.mp hsame
    refine ⟨?_, rfl, rfl, hrun.symm⟩
    simp only [Instance.own, Instance.program, hcommand]
  · exact ⟨rfl, rfl, rfl, rfl⟩

theorem update_children (i : Instance) (os : Os) : (i.update os).children = os.children := by
  unfold Instance.update
  split <;> rfl

theorem Supervised.update (h : Supervised w) (cfg : Configuration) (name : String) :
    Supervised (w.update cfg name) := by
  unfold World.update
  split
  · exact h
  · rename_i k i hfind
    obtain ⟨hown, hstarted, hpid, hrun⟩ :=
      merge_configuration_spec (cfg.get_instance_configuration name) i
    have hmem := (find_eq_some_iff.mp hfind).1
    refine h.replace hfind hown ?_ ?_ _ (update_children _ _)
    · rw [hstarted, hrun]
      exact h.started _ hmem
    · rw [hstarted, hpid]
      exact h.idle _ hmem

/-- A child is forked. -/
theorem exec_process_children (hkernel : Fresh kernel) (c : InstanceConfiguration) (os : Os) :
    (Instance.exec_process kernel c os).2.children.values = os.children.values ++
      [⟨(Instance.exec_process kernel c os).1, c.executable, c.config_file, false⟩] := by
  refine values_insert trivial fun child hchild hpid => ?_
  exact (hkernel _ _).2 (List.mem_map.mpr ⟨child, hchild, hpid⟩)

/-- An instance that is not started, and what `start` makes of it. -/
theorem start_spec (hkernel : Fresh kernel) (i : Instance) (os : Os) (h : i.started = false)
    (hidle : i.config.run = false → i.pid = 0) :
    let started := i.start kernel os
    (started.2.children.values.map Child.program =
        os.children.values.map Child.program ++ started.1.own) ∧
      started.1.config = i.config ∧ started.1.started = i.config.run ∧
      (started.1.started = false → started.1.pid = 0) ∧
      ∀ c ∈ started.2.children.values, c ∈ os.children.values ∨ 0 < c.pid := by
  intro started
  by_cases hrun : i.config.run = true
  · have hstarted : started = ({ i with
        started := true
        pid := (Instance.exec_process kernel i.config os).1 },
        (Instance.exec_process kernel i.config os).2) := if_pos ⟨h, hrun⟩
    have hchildren := exec_process_children hkernel i.config os
    rw [hstarted]
    refine ⟨?_, rfl, hrun.symm, fun hfalse => absurd hfalse.symm nofun, fun c hc => ?_⟩
    · rw [hchildren, List.map_append]
      rfl
    · rcases List.mem_append.mp (hchildren ▸ hc) with hold | hnew
      · exact .inl hold
      · rw [List.mem_singleton.mp hnew]
        exact .inr (hkernel _ _).1
  · have hstarted : started = (i, os) := if_neg fun hcond => hrun hcond.2
    have hfalse := eq_false_of_ne_true hrun
    rw [hstarted]
    refine ⟨?_, rfl, h.trans hfalse.symm, fun _ => hidle hfalse, fun c hc => .inl hc⟩
    rw [Instance.own, h]
    exact (List.append_nil _).symm

theorem new_eq_start (c : InstanceConfiguration) (os : Os) :
    Instance.new kernel c os = Instance.start kernel ⟨c, false, 0⟩ os := by
  unfold Instance.new
  split
  · rfl
  · rename_i hrun
    exact (if_neg fun hcond => hrun hcond.2).symm

theorem Supervised.create (hkernel : Fresh kernel) (h : Supervised w) (cfg : Configuration)
    (hnone : w.instances.find name = none) : Supervised (w.create cfg kernel name) := by
  obtain ⟨hchildren, hconfig, hstarted, hidle, hpositive⟩ := start_spec hkernel
    ⟨cfg.get_instance_configuration name, false, 0⟩ w.os rfl fun _ => rfl
  rw [← new_eq_start] at hchildren hconfig hstarted hidle hpositive
  have hvalues : (w.create cfg kernel name).instances.values = w.instances.values ++
      [(name, (Instance.new kernel (cfg.get_instance_configuration name) w.os).1)] := by
    unfold World.create
    simp only [hnone, Option.isSome_none, Bool.false_eq_true, if_false]
    exact values_insert trivial fun e he => find_eq_none_iff.mp hnone e he
  refine ⟨?_, fun e he => ?_, fun e he => ?_, fun c hc => (hpositive c hc).elim (h.positive c) id⟩
  · show ((Instance.new kernel _ w.os).2.children.values.map Child.program).Perm _
    rw [hchildren, hvalues, programs, List.flatMap_append, List.flatMap_singleton]
    exact h.children.append_right _
  · rcases List.mem_append.mp (hvalues ▸ he) with hold | hnew
    · exact h.started e hold
    · rw [List.mem_singleton.mp hnew, hconfig]
      exact hstarted
  · rcases List.mem_append.mp (hvalues ▸ he) with hold | hnew
    · exact h.idle e hold
    · rw [List.mem_singleton.mp hnew]
      exact hidle

theorem Supervised.exit (h : Supervised w) (pid : ℕ) :
    Supervised { w with os := w.os.exit pid } := by
  unfold Os.exit
  split
  · exact h
  · rename_i c hfind
    have hinsert : (w.os.children.insert { c with exited := true } trivial).values =
        (w.os.children.erase c.pid).values ++ [{ c with exited := true }] := rfl
    have hpid := find_key hfind
    have hperm := (perm_of_find hfind).map Child.program
    rw [← hpid] at hperm
    refine ⟨?_, h.started, h.idle, fun c' hc' => ?_⟩
    · show (List.map Child.program (Keyed.values _)).Perm _
      rw [hinsert, List.map_append]
      exact (List.perm_append_comm.trans hperm.symm).trans h.children
    · rcases List.mem_append.mp (hinsert ▸ hc') with hold | hnew
      · exact h.positive c' (List.mem_of_mem_filter hold)
      · rw [List.mem_singleton.mp hnew]
        exact h.positive c (find_eq_some_iff.mp hfind).1

/-- Only one of the instances has the pid. -/
theorem foldl_restartStopped {entries : List (String × Instance)}
    (hnodup : entries.Nodup) (he : e ∈ entries) {pid : ℕ}
    (honly : ∀ e' ∈ entries, e'.2.pid = pid → e' = e) (w : World) :
    entries.foldl (restartStopped kernel pid) w = restartStopped kernel pid w e := by
  have hother : ∀ l : List (String × Instance), (∀ e' ∈ l, e'.2.pid ≠ pid) → ∀ w : World,
      l.foldl (restartStopped kernel pid) w = w := by
    intro l
    induction l with
    | nil => exact fun _ _ => rfl
    | cons e' l ih =>
      intro h w
      rw [List.foldl_cons, restartStopped, if_neg (h e' List.mem_cons_self)]
      exact ih (fun e'' he'' => h e'' (List.mem_cons_of_mem _ he'')) w
  obtain ⟨l₁, l₂, rfl⟩ := List.append_of_mem he
  have hnot := (List.nodup_middle.mp hnodup)
  rw [List.nodup_cons, List.mem_append, not_or] at hnot
  have h₁ : ∀ e' ∈ l₁, e'.2.pid ≠ pid := fun e' he' hpid =>
    hnot.1.1 (honly e' (List.mem_append_left _ he') hpid ▸ he')
  have h₂ : ∀ e' ∈ l₂, e'.2.pid ≠ pid := fun e' he' hpid =>
    hnot.1.2 (honly e' (List.mem_append_right _ (List.mem_cons_of_mem _ he')) hpid ▸ he')
  rw [List.foldl_append, hother l₁ h₁, List.foldl_cons, hother l₂ h₂]

theorem Supervised.reap (hkernel : Fresh kernel) (h : Supervised w) (pid : ℕ) :
    Supervised (w.reap kernel pid) := by
  unfold World.reap
  split
  · exact h
  · rename_i c hc
    split
    · -- the child is that of one instance
      obtain ⟨hmem, hpid⟩ := find_eq_some_iff.mp hc
      obtain ⟨e, he, hown⟩ :=
        List.mem_flatMap.mp (h.children.mem_iff.mp (List.mem_map_of_mem hmem))
      unfold Instance.own at hown
      split at hown
      · rename_i hstarted
        have hprogram := List.mem_singleton.mp hown
        have hpid' : e.2.pid = pid := (congrArg Prod.fst hprogram).symm.trans hpid
        have hpositive := h.positive c hmem
        have honly : ∀ e' ∈ w.instances.values, e'.2.pid = pid → e' = e := by
          intro e' he' hsame
          refine h.pid_inj he' he ?_ hstarted (hsame.trans hpid'.symm)
          by_contra hidle
          have hzero := h.idle e' he' (eq_false_of_ne_true hidle)
          omega
        have hfind : w.instances.find e.1 = some e := find_eq_some_iff.mpr ⟨he, rfl⟩
        have hrun : e.2.config.run = true := (h.started e he).symm.trans hstarted
        obtain ⟨hchildren, hconfig, hstart, hidle, hnew⟩ := start_spec hkernel
          { e.2 with started := false } (w.os.waitpid pid) rfl
          fun hfalse => absurd (hrun.symm.trans hfalse) nofun
        have hwithout := h.without hfind hstarted
        rw [hpid'] at hwithout
        rw [foldl_restartStopped (List.Nodup.of_map _ w.instances.nodup) he honly,
          restartStopped, if_pos hpid']
        refine ⟨?_, fun e' he' => ?_, fun e' he' => ?_, fun c' hc' => ?_⟩
        · show ((Instance.start kernel _ _).2.children.values.map Child.program).Perm
            (programs (w.instances.insert (e.1, _) trivial).values)
          rw [hchildren, programs_insert]
          exact hwithout.append_right _
        · rcases mem_insert he' with hold | rfl
          · exact h.started e' hold
          · exact hstart.trans (congrArg InstanceConfiguration.run hconfig).symm
        · rcases mem_insert he' with hold | rfl
          · exact h.idle e' hold
          · exact hidle
        · rcases hnew c' hc' with hold | hpos
          · exact h.positive c' (List.mem_of_mem_filter hold)
          · exact hpos
      · exact absurd hown List.not_mem_nil
    · exact h

/-! ## What a reload does to each name -/

/-- The configuration that runs under a name. -/
def World.configOf (w : World) (n : String) : Option InstanceConfiguration :=
  (w.instances.find n).map fun e => e.2.config

theorem find_delete (w : World) (name n : String) :
    (w.delete name).instances.find n = if n = name then none else w.instances.find n := by
  unfold World.delete
  split
  · rename_i hnone
    split
    · rename_i heq
      rw [heq]
      exact hnone
    · rfl
  · show (w.instances.erase name).find n = _
    rw [find_erase, Function.update_apply]

theorem find_foldl_delete (names : List String) (w : World) (n : String) :
    (names.foldl World.delete w).instances.find n =
      if n ∈ names then none else w.instances.find n := by
  induction names generalizing w with
  | nil => exact (if_neg List.not_mem_nil).symm
  | cons name names ih =>
    rw [List.foldl_cons, ih, find_delete]
    by_cases hname : n = name <;> by_cases hnames : n ∈ names <;> simp [hname, hnames]

theorem find_update (cfg : Configuration) (w : World) (name n : String) :
    (w.update cfg name).instances.find n =
      if n = name then
        (w.instances.find n).map fun e =>
          (e.1, e.2.merge_configuration (cfg.get_instance_configuration n))
      else w.instances.find n := by
  unfold World.update
  split
  · rename_i hnone
    split
    · rename_i heq
      rw [heq, hnone]
      rfl
    · rfl
  · rename_i k i hfind
    show (w.instances.insert
      (name, i.merge_configuration (cfg.get_instance_configuration name)) trivial).find n = _
    rw [find_insert, Function.update_apply]
    split
    · rename_i heq
      have hkey : k = name := find_key hfind
      rw [heq, hfind, hkey]
      rfl
    · rfl

variable {names : List String}

theorem find_foldl_update (cfg : Configuration) (hnodup : names.Nodup)
    (w : World) (n : String) :
    (names.foldl (World.update cfg) w).instances.find n = if n ∈ names then
      (w.instances.find n).map fun e =>
        (e.1, e.2.merge_configuration (cfg.get_instance_configuration n))
      else w.instances.find n := by
  induction names generalizing w with
  | nil => exact (if_neg List.not_mem_nil).symm
  | cons name names ih =>
    obtain ⟨hname, hnames⟩ := List.nodup_cons.mp hnodup
    rw [List.foldl_cons, ih hnames, find_update]
    by_cases heq : n = name
    · rw [heq, if_neg hname, if_pos rfl, if_pos List.mem_cons_self]
    · simp [heq]

theorem find_create (cfg : Configuration) (w : World) (name n : String) :
    (w.create cfg kernel name).instances.find n =
      if n = name ∧ w.instances.find n = none then
        some (name, (Instance.new kernel (cfg.get_instance_configuration name) w.os).1)
      else w.instances.find n := by
  unfold World.create
  by_cases hname : n = name
  · subst hname
    cases hfind : w.instances.find n with
    | none => simp [find_insert]
    | some e => simp [hfind]
  · cases hfind : w.instances.find name <;> simp [hname, find_insert]

theorem new_config (hkernel : Fresh kernel) (c : InstanceConfiguration) (os : Os) :
    (Instance.new kernel c os).1.config = c := by
  rw [new_eq_start]
  exact (start_spec hkernel ⟨c, false, 0⟩ os rfl fun _ => rfl).2.1

theorem configOf_foldl_create (hkernel : Fresh kernel) (cfg : Configuration) (names : List String)
    (w : World) (n : String) :
    (names.foldl (World.create cfg kernel) w).configOf n =
      if n ∈ names ∧ w.instances.find n = none then some (cfg.get_instance_configuration n)
      else w.configOf n := by
  induction names generalizing w with
  | nil => simp
  | cons name names ih =>
    rw [List.foldl_cons, ih, World.configOf, find_create]
    by_cases hname : n = name
    · subst hname
      cases hfind : w.instances.find n <;> simp [hfind, new_config hkernel, World.configOf]
    · simp [hname, World.configOf]

theorem Supervised.foldl_create (hkernel : Fresh kernel) (cfg : Configuration)
    (hnodup : names.Nodup) {w : World} (h : Supervised w)
    (hnone : ∀ n ∈ names, w.instances.find n = none) :
    Supervised (names.foldl (World.create cfg kernel) w) := by
  induction names generalizing w with
  | nil => exact h
  | cons name names ih =>
    obtain ⟨hname, hnames⟩ := List.nodup_cons.mp hnodup
    refine ih hnames (h.create hkernel cfg (hnone name List.mem_cons_self)) fun n hn => ?_
    rw [find_create, if_neg fun (heq : n = name ∧ _) => hname (heq.1 ▸ hn)]
    exact hnone n (List.mem_cons_of_mem _ hn)

/-! ## The three sets -/

theorem mem_names {t : Instances} {p : InstanceConfiguration → Bool} {n : String} :
    n ∈ (t.values.filter p).map InstanceConfiguration.name ↔
      ∃ c, t.find n = some c ∧ p c = true := by
  simp only [List.mem_map, List.mem_filter, find_eq_some_iff]
  refine exists_congr fun c => ?_
  rw [and_right_comm]

theorem nodup_names (t : Instances) (p : InstanceConfiguration → Bool) :
    ((t.values.filter p).map InstanceConfiguration.name).Nodup :=
  t.nodup.sublist (List.filter_sublist.map _)

theorem gone_eq (cfg : Configuration) (c : InstanceConfiguration) :
    gone cfg c = (cfg.instances.find c.name).isNone := by
  unfold gone Configuration.get_instance_configuration
  cases hfind : cfg.instances.find c.name with
  | none => rfl
  | some c' => exact cfg.instances.property c' (find_eq_some_iff.mp hfind).1

theorem get_of_find {cfg : Configuration} {n : String}
    (h : cfg.instances.find n = some c) : cfg.get_instance_configuration n = c := by
  rw [Configuration.get_instance_configuration, h]
  rfl

theorem same_iff {cfg : Configuration} : same cfg c = true ↔
    ∃ c', cfg.instances.find c.name = some c' ∧ c.same_child c' = true := by
  rw [same, gone_eq]
  cases hfind : cfg.instances.find c.name with
  | none => simp
  | some c' => simp [get_of_find hfind]

theorem changed_iff {cfg : Configuration} : changed cfg c = true ↔
    ∃ c', cfg.instances.find c.name = some c' ∧ c.same_child c' = false := by
  rw [changed, gone_eq]
  cases hfind : cfg.instances.find c.name with
  | none => simp
  | some c' => simp [get_of_find hfind]

section Sets

variable {cfg old : Configuration} {n : String}

/-- A name that is created is not the name of an instance that stays. -/
theorem mem_to_create : n ∈ to_create cfg old ↔
    (∃ c, old.instances.find n = some c ∧ changed cfg c = true) ∨
      old.instances.find n = none ∧ (cfg.instances.find n).isSome = true := by
  unfold to_create
  rw [List.mem_append, mem_names, mem_names]
  refine or_congr_right ⟨?_, ?_⟩
  · rintro ⟨c, hc, hnew⟩
    rw [find_key hc, Configuration.instance_exists, Bool.not_eq_true',
      Option.isSome_eq_false_iff, Option.isNone_iff_eq_none] at hnew
    exact ⟨hnew, hc ▸ rfl⟩
  · rintro ⟨hold, hnew⟩
    obtain ⟨c, hc⟩ := Option.isSome_iff_exists.mp hnew
    refine ⟨c, hc, ?_⟩
    rw [find_key hc, Configuration.instance_exists, hold]
    rfl

theorem nodup_to_create : (to_create cfg old).Nodup := by
  refine List.Nodup.append (nodup_names _ _) (nodup_names _ _) ?_
  intro n hchanged hnew
  obtain ⟨c, hc, -⟩ := mem_names.mp hchanged
  obtain ⟨c', hc', hnot⟩ := mem_names.mp hnew
  rw [find_key hc', Configuration.instance_exists, hc] at hnot
  cases hnot

end Sets

/-- What runs under each name is what the configuration says. -/
def Configured (w : World) : Prop := ∀ n, w.configOf n = w.config.instances.find n

section Apply

variable {cfg : Configuration}

/-- After the old processes went, and the others were told. -/
def World.updated (cfg : Configuration) (w : World) : World :=
  (to_update cfg w.config).foldl (World.update cfg)
    ((to_delete cfg w.config).foldl World.delete w)

theorem apply_eq (cfg : Configuration) (w : World) : w.apply_new_configuration kernel cfg =
    { (to_create cfg w.config).foldl (World.create cfg kernel) (w.updated cfg) with
      config := cfg } := rfl

theorem find_updated (cfg : Configuration) (w : World) (n : String) :
    (w.updated cfg).instances.find n =
      match w.config.instances.find n with
      | none => w.instances.find n
      | some c =>
        if same cfg c then (w.instances.find n).map fun e =>
          (e.1, e.2.merge_configuration (cfg.get_instance_configuration n))
        else none := by
  unfold World.updated to_update to_delete
  rw [find_foldl_update cfg (nodup_names _ _), find_foldl_delete]
  simp only [mem_names]
  cases w.config.instances.find n with
  | none => simp
  | some c => cases hgone : gone cfg c <;>
      cases hsame : c.same_child (cfg.get_instance_configuration c.name) <;>
      simp [changed, same, hgone, hsame]

/-- Nothing runs under a name that is created. -/
theorem find_of_mem_to_create (h : Configured w) {n : String}
    (hn : n ∈ to_create cfg w.config) : (w.updated cfg).instances.find n = none := by
  rw [find_updated]
  rcases mem_to_create.mp hn with ⟨c, hc, hchanged⟩ | ⟨hold, -⟩
  · rw [hc]
    simp only [changed, Bool.and_eq_true, Bool.not_eq_true'] at hchanged
    simp [same, hchanged]
  · rw [hold]
    have hrun := (h n).trans hold
    exact Option.map_eq_none_iff.mp hrun

theorem Supervised.updated (h : Supervised w) (cfg : Configuration) :
    Supervised (w.updated cfg) := by
  have hdelete := List.foldlRecOn (motive := Supervised) (to_delete cfg w.config)
    World.delete h fun _ h name _ => h.delete name
  exact List.foldlRecOn (to_update cfg w.config) (World.update cfg) hdelete
    fun _ h name _ => h.update cfg name

theorem Supervised.apply (hkernel : Fresh kernel) (h : Supervised w) (hconfig : Configured w)
    (cfg : Configuration) : Supervised (w.apply_new_configuration kernel cfg) := by
  have hcreate := (h.updated cfg).foldl_create hkernel cfg nodup_to_create
    fun n hn => find_of_mem_to_create hconfig hn
  exact ⟨hcreate.children, hcreate.started, hcreate.idle, hcreate.positive⟩

theorem Configured.apply (hkernel : Fresh kernel) (h : Configured w) (cfg : Configuration) :
    Configured (w.apply_new_configuration kernel cfg) := by
  intro n
  show ((to_create cfg w.config).foldl (World.create cfg kernel) (w.updated cfg)).configOf n =
    cfg.instances.find n
  rw [configOf_foldl_create hkernel]
  by_cases hn : n ∈ to_create cfg w.config
  · -- a new process: the name is one of the new configuration
    rw [if_pos ⟨hn, find_of_mem_to_create h hn⟩]
    have hsome : (cfg.instances.find n).isSome = true := by
      rcases mem_to_create.mp hn with ⟨c, hc, hchanged⟩ | ⟨-, hnew⟩
      · obtain ⟨c', hc', -⟩ := changed_iff.mp hchanged
        rw [← find_key hc, hc']
        rfl
      · exact hnew
    obtain ⟨c, hc⟩ := Option.isSome_iff_exists.mp hsome
    rw [get_of_find hc, hc]
  · rw [if_neg fun hcond => hn hcond.1, World.configOf, find_updated]
    have hnot := mt mem_to_create.mpr hn
    rw [not_or] at hnot
    cases hold : w.config.instances.find n with
    | none =>
      -- it is in neither configuration
      have hnew : cfg.instances.find n = none :=
        Option.not_isSome_iff_eq_none.mp fun hnew => hnot.2 ⟨hold, hnew⟩
      rw [hnew]
      exact (h n).trans hold
    | some c =>
      have hname := find_key hold
      obtain ⟨e, he, hec⟩ := Option.map_eq_some_iff.mp ((h n).trans hold)
      cases hnew : cfg.instances.find n with
      | none =>
        have hsame : ¬same cfg c = true := fun hsame => by
          obtain ⟨c', hc', -⟩ := same_iff.mp hsame
          rw [hname, hnew] at hc'
          cases hc'
        simp only [if_neg hsame, Option.map_none]
      | some c' =>
        -- the process stays, under its new configuration
        have hchild : c.same_child c' = true := by
          by_contra hother
          exact hnot.1 ⟨c, hold, changed_iff.mpr ⟨c', hname ▸ hnew, eq_false_of_ne_true hother⟩⟩
        have hsame : same cfg c = true := same_iff.mpr ⟨c', hname ▸ hnew, hchild⟩
        simp only [if_pos hsame, he, Option.map_some, Instance.merge_configuration, hec,
          get_of_find hnew, if_pos hchild]

end Apply

/-! ## Every run -/

theorem supervised_start : Supervised World.start :=
  ⟨.nil, fun _ he => absurd he List.not_mem_nil, fun _ he => absurd he List.not_mem_nil,
    fun _ hc => absurd hc List.not_mem_nil⟩

theorem start_config (i : Instance) (os : Os) : (i.start kernel os).1.config = i.config := by
  unfold Instance.start
  split <;> rfl

theorem configOf_restartStopped {pid : ℕ}
    (h : w.configOf e.1 = some e.2.config) (n : String) :
    (restartStopped kernel pid w e).configOf n = w.configOf n := by
  unfold restartStopped
  split
  · show ((w.instances.insert (e.1, (e.2.restart kernel w.os).1) trivial).find n).map _ = _
    rw [find_insert, Function.update_apply]
    split
    · rename_i hn
      rw [hn, h]
      exact congrArg some (start_config _ _)
    · rfl
  · rfl

theorem Configured.reap (h : Configured w) (pid : ℕ) : Configured (w.reap kernel pid) := by
  have hfold : ∀ (l : List (String × Instance)) (w' : World),
      (∀ e ∈ l, w'.configOf e.1 = some e.2.config) → w'.config = w.config →
      (∀ n, w'.configOf n = w.configOf n) →
      Configured (l.foldl (restartStopped kernel pid) w') := by
    intro l
    induction l with
    | nil => exact fun w' _ hconfig hn n => (hn n).trans ((h n).trans (hconfig ▸ rfl))
    | cons e l ih =>
      intro w' hl hconfig hn
      have hsame : ∀ n, (restartStopped kernel pid w' e).configOf n = w'.configOf n :=
        configOf_restartStopped (hl e List.mem_cons_self)
      refine ih _ (fun e' he' => ?_) ?_ fun n => (hsame n).trans (hn n)
      · rw [hsame]
        exact hl e' (List.mem_cons_of_mem _ he')
      · unfold restartStopped
        split <;> exact hconfig
  unfold World.reap
  split
  · exact h
  · split
    · refine hfold _ _ (fun e he => ?_) rfl fun _ => rfl
      have hfind : w.instances.find e.1 = some e := find_eq_some_iff.mpr ⟨he, rfl⟩
      show (w.instances.find e.1).map _ = _
      rw [hfind]
      rfl
    · exact h

theorem step_invariant (hkernel : Fresh kernel) (h : Supervised w ∧ Configured w)
    (action : Action) :
    Supervised (w.step kernel action) ∧ Configured (w.step kernel action) := by
  cases action with
  | apply cfg => exact ⟨h.1.apply hkernel h.2 cfg, h.2.apply hkernel cfg⟩
  | exit pid => exact ⟨h.1.exit pid, h.2⟩
  | reap pid => exact ⟨h.1.reap hkernel pid, h.2.reap pid⟩

theorem run_invariant (hkernel : Fresh kernel) (actions : List Action) :
    Supervised (World.run kernel actions) ∧ Configured (World.run kernel actions) := by
  induction actions using List.reverseRecOn with
  | nil => exact ⟨supervised_start, fun _ => rfl⟩
  | append_singleton actions action ih =>
    rw [World.run, List.foldl_append]
    exact step_invariant hkernel ih action

/-- The configuration that was applied last. -/
def applied (actions : List Action) : Configuration :=
  actions.foldl (fun cfg action =>
    match action with
    | .apply cfg' => cfg'
    | .exit _ => cfg
    | .reap _ => cfg) ⟨.empty⟩

theorem config_foldl_restartStopped (pid : ℕ) (l : List (String × Instance)) (w : World) :
    (l.foldl (restartStopped kernel pid) w).config = w.config := by
  induction l generalizing w with
  | nil => rfl
  | cons e l ih =>
    rw [List.foldl_cons, ih]
    unfold restartStopped
    split <;> rfl

theorem config_run (kernel : ℕ → List ℕ → ℕ) (actions : List Action) :
    (World.run kernel actions).config = applied actions := by
  induction actions using List.reverseRecOn with
  | nil => rfl
  | append_singleton actions action ih =>
    rw [World.run, List.foldl_append, applied, List.foldl_append]
    cases action with
    | apply cfg => rfl
    | exit pid => exact ih
    | reap pid =>
      refine Eq.trans ?_ ih
      show (World.reap kernel pid (World.run kernel actions)).config = _
      unfold World.reap
      split
      · rfl
      · split
        · exact config_foldl_restartStopped pid _ _
        · rfl

theorem Configured.config_find (h : Configured w) {n : String}
    (he : w.instances.find n = some e) : w.config.instances.find n = some e.2.config := by
  rw [← h n, World.configOf, he]
  rfl

/-- The configurations of the instances are those of the configuration. -/
theorem Configured.perm (h : Configured w) :
    (w.instances.values.map fun e => e.2.config).Perm w.config.instances.values := by
  have hfind : ∀ e ∈ w.instances.values, w.config.instances.find e.1 = some e.2.config :=
    fun e he => h.config_find (find_eq_some_iff.mpr ⟨he, rfl⟩)
  have hname : (w.instances.values.map fun e => e.2.config).map InstanceConfiguration.name =
      w.instances.values.map Prod.fst := by
    rw [List.map_map]
    exact List.map_congr_left fun e he => (find_key (hfind e he) :)
  refine (List.perm_ext_iff_of_nodup (List.Nodup.of_map InstanceConfiguration.name ?_)
    (List.Nodup.of_map _ w.config.instances.nodup)).mpr fun c => ⟨?_, ?_⟩
  · rw [hname]
    exact w.instances.nodup
  · intro hc
    obtain ⟨e, he, rfl⟩ := List.mem_map.mp hc
    exact (find_eq_some_iff.mp (hfind e he)).1
  · intro hc
    have hrun := (h c.name).trans (find_eq_some_iff.mpr ⟨hc, rfl⟩)
    obtain ⟨e, he, hec⟩ := Option.map_eq_some_iff.mp hrun
    exact List.mem_map.mpr ⟨e, (find_eq_some_iff.mp he).1, hec⟩

theorem Supervised.commands (h : Supervised w) (hconfig : Configured w) :
    (w.os.children.values.map fun c => (c.executable, c.config_file)).Perm
      ((w.config.instances.values.filter fun c => c.run).map InstanceConfiguration.command) := by
  have hchildren := h.children.map Prod.snd
  rw [List.map_map] at hchildren
  have hown : (programs w.instances.values).map Prod.snd =
      (w.instances.values.map fun e => e.2.config).flatMap
        fun c => if c.run then [c.command] else [] := by
    rw [programs, List.map_flatMap, List.flatMap_map]
    refine List.flatMap_congr fun e he => ?_
    rw [Instance.own, h.started e he]
    split <;> rfl
  have hfilter : ∀ l : List InstanceConfiguration,
      (l.flatMap fun c => if c.run then [c.command] else []) =
        (l.filter fun c => c.run).map InstanceConfiguration.command := by
    intro l
    induction l with
    | nil => rfl
    | cons c l ih => cases hrun : c.run <;> simp [hrun, ih]
  rw [hown] at hchildren
  rw [← hfilter]
  exact hchildren.trans (hconfig.perm.flatMap_right _)

theorem mem_foldl_stop {l : List (String × Instance)} {c : Child}
    (h : c ∈ (l.foldl (fun (w : World) e => { w with os := e.2.stop w.os }) w).os.children.values) :
    c ∈ w.os.children.values ∧ ∀ e ∈ l, e.2.started = true → e.2.pid ≠ c.pid := by
  induction l generalizing w with
  | nil => exact ⟨h, fun _ he => absurd he List.not_mem_nil⟩
  | cons e l ih =>
    obtain ⟨hmem, hl⟩ := ih h
    change c ∈ (e.2.stop w.os).children.values at hmem
    unfold Instance.stop at hmem
    split at hmem
    · obtain ⟨hold, hpid⟩ := List.mem_filter.mp hmem
      refine ⟨hold, List.forall_mem_cons.mpr ⟨fun _ => ?_, hl⟩⟩
      exact Ne.symm (of_decide_eq_true hpid)
    · rename_i hidle
      exact ⟨hmem, List.forall_mem_cons.mpr ⟨fun hstarted => absurd hstarted hidle, hl⟩⟩

theorem Supervised.stop (h : Supervised w) : w.stop.os.children.values = [] := by
  refine List.eq_nil_iff_forall_not_mem.mpr fun c hc => ?_
  obtain ⟨hmem, hnot⟩ := mem_foldl_stop hc
  obtain ⟨e, he, hown⟩ := List.mem_flatMap.mp (h.children.mem_iff.mp (List.mem_map_of_mem hmem))
  unfold Instance.own at hown
  split at hown
  · rename_i hstarted
    exact hnot e he hstarted (congrArg Prod.fst (List.mem_singleton.mp hown)).symm
  · exact absurd hown List.not_mem_nil

/-- **The watchdog has the children it is to have**: after any run, one for each instance of the
configuration applied last that is to run, and none when it has stopped. -/
theorem children_of_run (hkernel : Fresh kernel) (actions : List Action) :
    ((World.run kernel actions).os.children.values.map fun c => (c.executable, c.config_file)).Perm
        (((applied actions).instances.values.filter fun c => c.run).map
          InstanceConfiguration.command) ∧
      (World.run kernel actions).stop.os.children.values = [] := by
  obtain ⟨hsupervised, hconfigured⟩ := run_invariant hkernel actions
  rw [← config_run kernel]
  exact ⟨hsupervised.commands hconfigured, hsupervised.stop⟩

/-! ## What a reload changes -/

/-- The pid of the process of an instance. -/
def World.pids (w : World) (n : String) : List ℕ :=
  match w.instances.find n with
  | none => []
  | some e => if e.2.started then [e.2.pid] else []

/-- What a reload does, and to which processes. -/
structure Reloaded (cfg : Configuration) (w w' : World) : Prop where
  /-- An instance that is the same process in the new configuration keeps it. -/
  kept : ∀ name i, w.instances.find name = some (name, i) → same cfg i.config = true →
    w'.instances.find name =
        some (name, { i with config := cfg.get_instance_configuration name }) ∧
      (i.started = true → w'.os.children.find i.pid = w.os.children.find i.pid)
  /-- The others are told to stop, and this one to reload, if its new configuration says so. -/
  sent : w'.os.sent = w.os.sent ++
    ((to_delete cfg w.config).flatMap w.pids).map (fun pid => (pid, .term)) ++
    (((to_update cfg w.config).filter
      fun n => (cfg.get_instance_configuration n).reload).flatMap w.pids).map fun pid => (pid, .hup)
  /-- As many are forked as are new or changed, and to run. -/
  forks : w'.os.forks = w.os.forks +
    ((to_create cfg w.config).filter fun n => (cfg.get_instance_configuration n).run).length
  /-- Each of them has a child, which executes what its configuration says and is not one that an
  instance had kept. -/
  created : ∀ name ∈ to_create cfg w.config,
    (cfg.get_instance_configuration name).run = true →
      ∃ i c, w'.instances.find name = some (name, i) ∧ i.started = true ∧
        w'.os.children.find i.pid = some c ∧
        c.program = (i.pid, (cfg.get_instance_configuration name).command) ∧
        ∀ name' i', w.instances.find name' = some (name', i') → same cfg i'.config = true →
          i'.started = true → i.pid ≠ i'.pid

theorem pids_none (h : w.instances.find name = none) : w.pids name = [] := by
  simp only [World.pids, h]

theorem pids_some (h : w.instances.find name = some e) :
    w.pids name = if e.2.started then [e.2.pid] else [] := by
  simp only [World.pids, h]

theorem mem_pids {n : String} {p : ℕ} :
    p ∈ w.pids n ↔ ∃ e, w.instances.find n = some e ∧ e.2.started = true ∧ e.2.pid = p := by
  unfold World.pids
  cases w.instances.find n with
  | none => simp
  | some e =>
    constructor
    · intro hp
      simp only at hp
      split at hp
      · rename_i hstarted
        exact ⟨e, rfl, hstarted, (List.mem_singleton.mp hp).symm⟩
      · exact absurd hp List.not_mem_nil
    · intro hp
      obtain ⟨e', he', hstarted, hpid⟩ := hp
      obtain rfl := Option.some.inj he'
      simp only [if_pos hstarted, List.mem_singleton, hpid]

theorem pids_delete (w : World) (name n : String) :
    (w.delete name).pids n = if n = name then [] else w.pids n := by
  unfold World.pids
  rw [find_delete]
  by_cases heq : n = name
  · rw [if_pos heq, if_pos heq]
  · rw [if_neg heq, if_neg heq]

theorem delete_os (w : World) (name : String) :
    (w.delete name).os.sent = w.os.sent ++ (w.pids name).map (fun pid => (pid, .term)) ∧
      (w.delete name).os.forks = w.os.forks ∧
      ∀ p, p ∉ w.pids name → (w.delete name).os.children.find p = w.os.children.find p := by
  cases hfind : w.instances.find name with
  | none =>
    have hdelete : w.delete name = w := by simp only [World.delete, hfind]
    rw [hdelete, pids_none hfind]
    exact ⟨(List.append_nil _).symm, rfl, fun _ _ => rfl⟩
  | some e =>
    obtain ⟨k, i⟩ := e
    have hdelete : (w.delete name).os = i.stop w.os := by simp only [World.delete, hfind]
    rw [hdelete, pids_some hfind, Instance.stop]
    by_cases hstarted : i.started = true
    · rw [if_pos hstarted, if_pos hstarted]
      refine ⟨rfl, rfl, fun p hp => ?_⟩
      show (w.os.children.erase i.pid).find p = _
      rw [find_erase, Function.update_of_ne (List.ne_of_not_mem_cons hp)]
    · rw [if_neg hstarted, if_neg hstarted]
      exact ⟨(List.append_nil _).symm, rfl, fun _ _ => rfl⟩

theorem foldl_delete_os (hnodup : names.Nodup) (w : World) :
    (names.foldl World.delete w).os.sent =
        w.os.sent ++ (names.flatMap w.pids).map (fun pid => (pid, .term)) ∧
      (names.foldl World.delete w).os.forks = w.os.forks ∧
      ∀ p, (∀ n ∈ names, p ∉ w.pids n) →
        (names.foldl World.delete w).os.children.find p = w.os.children.find p := by
  induction names generalizing w with
  | nil => exact ⟨(List.append_nil _).symm, rfl, fun _ _ => rfl⟩
  | cons name names ih =>
    obtain ⟨hname, hnames⟩ := List.nodup_cons.mp hnodup
    obtain ⟨hsent, hforks, hchildren⟩ := ih hnames (w.delete name)
    obtain ⟨hsent', hforks', hchildren'⟩ := delete_os w name
    have hpids : ∀ n ∈ names, (w.delete name).pids n = w.pids n := fun n hn => by
      rw [pids_delete, if_neg fun (heq : n = name) => hname (heq ▸ hn)]
    refine ⟨?_, hforks.trans hforks', fun p hp => ?_⟩
    · rw [List.foldl_cons, hsent, hsent', List.flatMap_congr hpids, List.append_assoc,
        ← List.map_append]
      rfl
    · refine (hchildren p fun n hn => ?_).trans (hchildren' p (hp name List.mem_cons_self))
      rw [hpids n hn]
      exact hp n (List.mem_cons_of_mem _ hn)

section Update

variable {cfg : Configuration}

/-- A process that is told keeps its pid. -/
theorem update_pids (cfg : Configuration) (w : World) (name n : String) :
    (w.update cfg name).pids n = w.pids n := by
  unfold World.pids
  rw [find_update]
  by_cases heq : n = name
  · rw [if_pos heq]
    cases w.instances.find n with
    | none => rfl
    | some e =>
      obtain ⟨-, hstarted, hpid, -⟩ :=
        merge_configuration_spec (cfg.get_instance_configuration n) e.2
      simp only [Option.map_some, hstarted, hpid]
  · rw [if_neg heq]

theorem update_os (hsame : ∀ e, w.instances.find name = some e →
      e.2.config.same_child (cfg.get_instance_configuration name) = true) :
    (w.update cfg name).os.sent = w.os.sent ++
        (if (cfg.get_instance_configuration name).reload then w.pids name else []).map
          (fun pid => (pid, .hup)) ∧
      (w.update cfg name).os.forks = w.os.forks ∧
      (w.update cfg name).os.children = w.os.children := by
  cases hfind : w.instances.find name with
  | none =>
    have hupdate : w.update cfg name = w := by simp only [World.update, hfind]
    rw [hupdate, pids_none hfind, ite_self]
    exact ⟨(List.append_nil _).symm, rfl, rfl⟩
  | some e =>
    obtain ⟨k, i⟩ := e
    have hupdate : (w.update cfg name).os =
        Instance.update { i with config := cfg.get_instance_configuration name } w.os := by
      simp only [World.update, hfind, Instance.merge_configuration, if_pos (hsame _ hfind)]
    rw [hupdate, pids_some hfind, Instance.update]
    cases hstarted : i.started <;>
      cases hreload : (cfg.get_instance_configuration name).reload <;>
      simp [Os.kill]

theorem foldl_update_os {names : List String} (hnodup : names.Nodup) {w : World}
    (hsame : ∀ n ∈ names, ∀ e, w.instances.find n = some e →
      e.2.config.same_child (cfg.get_instance_configuration n) = true) :
    (names.foldl (World.update cfg) w).os.sent = w.os.sent ++
        ((names.filter fun n => (cfg.get_instance_configuration n).reload).flatMap w.pids).map
          (fun pid => (pid, .hup)) ∧
      (names.foldl (World.update cfg) w).os.forks = w.os.forks ∧
      (names.foldl (World.update cfg) w).os.children = w.os.children := by
  induction names generalizing w with
  | nil => exact ⟨(List.append_nil _).symm, rfl, rfl⟩
  | cons name names ih =>
    obtain ⟨hname, hnames⟩ := List.nodup_cons.mp hnodup
    have hrest : ∀ n ∈ names, ∀ e, (w.update cfg name).instances.find n = some e →
        e.2.config.same_child (cfg.get_instance_configuration n) = true := by
      intro n hn e he
      rw [find_update, if_neg fun (heq : n = name) => hname (heq ▸ hn)] at he
      exact hsame n (List.mem_cons_of_mem _ hn) e he
    obtain ⟨hsent, hforks, hchildren⟩ := ih hnames hrest
    obtain ⟨hsent', hforks', hchildren'⟩ := update_os (hsame name List.mem_cons_self)
    refine ⟨?_, hforks.trans hforks', hchildren.trans hchildren'⟩
    rw [List.foldl_cons, hsent, hsent', funext (update_pids cfg w name), List.append_assoc,
      ← List.map_append]
    cases hreload : (cfg.get_instance_configuration name).reload <;> simp [hreload]

theorem new_os (c : InstanceConfiguration) (os : Os) : (Instance.new kernel c os).2 =
    if c.run then (Instance.exec_process kernel c os).2 else os := by
  unfold Instance.new Instance.start
  cases c.run <;> simp

theorem create_os (hkernel : Fresh kernel) (cfg : Configuration) (w : World) (name : String) :
    (w.create cfg kernel name).os.sent = w.os.sent ∧
      (w.create cfg kernel name).os.forks = w.os.forks +
        (if (cfg.get_instance_configuration name).run then 1 else 0) ∧
      ∀ p c, w.os.children.find p = some c →
        (w.create cfg kernel name).os.children.find p = some c := by
  have hos : (w.create cfg kernel name).os = _ := new_os (cfg.get_instance_configuration name) w.os
  rw [hos]
  by_cases hrun : (cfg.get_instance_configuration name).run = true
  · rw [if_pos hrun, if_pos hrun]
    refine ⟨rfl, rfl, fun p c hc => ?_⟩
    obtain ⟨hmem, hpid⟩ := find_eq_some_iff.mp hc
    refine find_eq_some_iff.mpr ⟨?_, hpid⟩
    rw [exec_process_children hkernel]
    exact List.mem_append_left _ hmem
  · rw [if_neg hrun, if_neg hrun]
    exact ⟨rfl, rfl, fun _ _ hc => hc⟩

theorem foldl_create_os (hkernel : Fresh kernel) (cfg : Configuration) (names : List String)
    (w : World) :
    (names.foldl (World.create cfg kernel) w).os.sent = w.os.sent ∧
      (names.foldl (World.create cfg kernel) w).os.forks = w.os.forks +
        (names.filter fun n => (cfg.get_instance_configuration n).run).length ∧
      ∀ p c, w.os.children.find p = some c →
        (names.foldl (World.create cfg kernel) w).os.children.find p = some c := by
  induction names generalizing w with
  | nil => exact ⟨rfl, rfl, fun _ _ hc => hc⟩
  | cons name names ih =>
    obtain ⟨hsent, hforks, hchildren⟩ := ih (w.create cfg kernel name)
    obtain ⟨hsent', hforks', hchildren'⟩ := create_os hkernel cfg w name
    refine ⟨hsent.trans hsent', ?_, fun p c hc => hchildren p c (hchildren' p c hc)⟩
    rw [List.foldl_cons, hforks, hforks']
    cases hrun : (cfg.get_instance_configuration name).run with
    | false => simp [hrun]
    | true =>
      simp only [List.filter_cons, hrun, if_true, List.length_cons]
      omega

theorem find_foldl_create {names : List String} {n : String} (hn : n ∉ names) (cfg : Configuration)
    (w : World) :
    (names.foldl (World.create cfg kernel) w).instances.find n = w.instances.find n := by
  induction names generalizing w with
  | nil => rfl
  | cons name names ih =>
    rw [List.mem_cons, not_or] at hn
    rw [List.foldl_cons, ih hn.2, find_create,
      if_neg fun (heq : n = name ∧ _) => hn.1 heq.1]

/-- An instance that stays is neither deleted nor created. -/
theorem notMem_of_same {old : Configuration} {n : String} {c : InstanceConfiguration}
    (hold : old.instances.find n = some c) (hsame : same cfg c = true) :
    n ∉ to_delete cfg old ∧ n ∉ to_create cfg old := by
  obtain ⟨c', hc', hchild⟩ := same_iff.mp hsame
  have hgone : gone cfg c = false := by rw [gone_eq, hc', Option.isNone_some]
  have hchanged : ¬changed cfg c = true := fun hchanged => by
    obtain ⟨c'', hc'', hother⟩ := changed_iff.mp hchanged
    rw [hc'] at hc''
    obtain rfl := Option.some.inj hc''
    exact absurd (hchild.symm.trans hother) nofun
  constructor
  · rw [to_delete, mem_names]
    rintro ⟨d, hd, hcond⟩
    rw [hold] at hd
    obtain rfl := Option.some.inj hd
    rw [hgone, Bool.false_or] at hcond
    exact hchanged hcond
  · rw [mem_to_create]
    rintro (⟨d, hd, hcond⟩ | ⟨hnone, -⟩)
    · rw [hold] at hd
      obtain rfl := Option.some.inj hd
      exact hchanged hcond
    · rw [hold] at hnone
      cases hnone

/-- The signals of a reload, and the children that it leaves alone. -/
theorem updated_os (h : Configured w) (cfg : Configuration) :
    (w.updated cfg).os.sent = w.os.sent ++
        ((to_delete cfg w.config).flatMap w.pids).map (fun pid => (pid, .term)) ++
        (((to_update cfg w.config).filter
          fun n => (cfg.get_instance_configuration n).reload).flatMap w.pids).map
            (fun pid => (pid, .hup)) ∧
      (w.updated cfg).os.forks = w.os.forks ∧
      ∀ p, (∀ n ∈ to_delete cfg w.config, p ∉ w.pids n) →
        (w.updated cfg).os.children.find p = w.os.children.find p := by
  have hdelete : (to_delete cfg w.config).Nodup := nodup_names _ _
  have hupdate : (to_update cfg w.config).Nodup := nodup_names _ _
  obtain ⟨hsent, hforks, hchildren⟩ := foldl_delete_os hdelete w
  have hkeep : ∀ n ∈ to_update cfg w.config,
      ((to_delete cfg w.config).foldl World.delete w).instances.find n =
        w.instances.find n := by
    intro n hn
    obtain ⟨c, hc, hsame⟩ := mem_names.mp hn
    rw [find_foldl_delete, if_neg (notMem_of_same hc hsame).1]
  obtain ⟨hsent', hforks', hchildren'⟩ :=
    @foldl_update_os cfg _ hupdate ((to_delete cfg w.config).foldl World.delete w)
      fun n hn e he => by
        obtain ⟨c, hc, hsame⟩ := mem_names.mp hn
        obtain ⟨c', hc', hchild⟩ := same_iff.mp hsame
        rw [hkeep n hn] at he
        rw [find_key hc] at hc'
        rw [Option.some.inj ((h.config_find he).symm.trans hc), get_of_find hc']
        exact hchild
  refine ⟨hsent'.trans ?_, hforks'.trans hforks, fun p hp => ?_⟩
  · rw [hsent]
    refine congrArg _ (congrArg _ (List.flatMap_congr fun n hn => ?_))
    unfold World.pids
    rw [hkeep n (List.mem_of_mem_filter hn)]
  · rw [← hchildren p hp, ← hchildren']
    rfl

/-- **A reload touches what changed**, and nothing else: in any state that a run reaches, the
processes of the other instances stay, and are told if they ask for it. -/
theorem reloaded_of_run (hkernel : Fresh kernel) (actions : List Action)
    (cfg : Configuration) :
    Reloaded cfg (World.run kernel actions)
      ((World.run kernel actions).apply_new_configuration kernel cfg) := by
  obtain ⟨hsupervised, hconfigured⟩ := run_invariant hkernel actions
  generalize World.run kernel actions = w at hsupervised hconfigured
  obtain ⟨hsent, hforks, hchildren⟩ := updated_os hconfigured cfg
  obtain ⟨hsent', hforks', hchildren'⟩ :=
    foldl_create_os hkernel cfg (to_create cfg w.config) (w.updated cfg)
  have hkept : ∀ name i, w.instances.find name = some (name, i) → same cfg i.config = true →
      (w.apply_new_configuration kernel cfg).instances.find name =
        some (name, { i with config := cfg.get_instance_configuration name }) := by
    intro name i hfind hsame
    have hold := hconfigured.config_find hfind
    -- the instance is told about its new configuration
    obtain ⟨c', hc', hchild⟩ := same_iff.mp hsame
    rw [find_key hold] at hc'
    rw [apply_eq]
    show ((to_create cfg w.config).foldl _ (w.updated cfg)).instances.find name = _
    rw [find_foldl_create (notMem_of_same hold hsame).2, find_updated, hold]
    simp only [if_pos hsame, hfind, Option.map_some, Instance.merge_configuration,
      get_of_find hc', if_pos hchild]
  refine ⟨fun name i hfind hsame => ⟨hkept name i hfind hsame, fun hstarted => ?_⟩,
    hsent'.trans hsent, hforks'.trans (congrArg (· + _) hforks), fun name hname hrun => ?_⟩
  · -- its child is not that of an instance that goes
    have hmem := (find_eq_some_iff.mp hfind).1
    obtain ⟨c, hc, -⟩ := hsupervised.child hmem hstarted
    have hother : ∀ n ∈ to_delete cfg w.config, i.pid ∉ w.pids n := by
      intro n hn hpid
      obtain ⟨e, he, hstarted', hpid'⟩ := mem_pids.mp hpid
      have heq := hsupervised.pid_inj (find_eq_some_iff.mp he).1 hmem hstarted' hstarted hpid'
      have hname : n = name := (find_key he).symm.trans (congrArg Prod.fst heq)
      exact (notMem_of_same (hconfigured.config_find hfind) hsame).1 (hname ▸ hn)
    rw [hc]
    exact hchildren' _ _ ((hchildren _ hother).trans hc)
  · -- what runs afterwards is what the new configuration says
    have hsupervised' := hsupervised.apply hkernel hconfigured cfg
    obtain ⟨c₀, hc₀⟩ : ∃ c₀, cfg.instances.find name = some c₀ := by
      rcases mem_to_create.mp hname with ⟨c, hc, hchanged⟩ | ⟨-, hnew⟩
      · obtain ⟨c', hc', -⟩ := changed_iff.mp hchanged
        exact ⟨c', find_key hc ▸ hc'⟩
      · exact Option.isSome_iff_exists.mp hnew
    have hconfig := (hconfigured.apply hkernel cfg name).trans hc₀
    obtain ⟨⟨name', i⟩, hfind, hi⟩ := Option.map_eq_some_iff.mp hconfig
    obtain rfl : name' = name := find_key hfind
    have hi : i.config = cfg.get_instance_configuration name' := hi.trans (get_of_find hc₀).symm
    have hmem := (find_eq_some_iff.mp hfind).1
    have hstarted : i.started = true := (hsupervised'.started _ hmem).trans (hi ▸ hrun)
    obtain ⟨c, hc, hprogram⟩ := hsupervised'.child hmem hstarted
    refine ⟨i, c, hfind, hstarted, hc, hi ▸ hprogram, fun n i' hfind' hsame hstarted' hpid => ?_⟩
    have hmem' := (find_eq_some_iff.mp (hkept n i' hfind' hsame)).1
    have heq := hsupervised'.pid_inj hmem hmem' hstarted hstarted' hpid
    have hn : name' = n := congrArg Prod.fst heq
    exact (notMem_of_same (hconfigured.config_find hfind') hsame).2 (hn ▸ hname)

end Update

/-! ## One run -/

/-- A kernel that gives a pid above those that are there. -/
def nextPid (_ : ℕ) (pids : List ℕ) : ℕ := pids.foldr (· + ·) 0 + 1

theorem fresh_nextPid : Fresh nextPid := by
  have hle : ∀ (pids : List ℕ), ∀ p ∈ pids, p ≤ pids.foldr (· + ·) 0 := by
    intro pids
    induction pids with
    | nil => exact fun _ hp => absurd hp List.not_mem_nil
    | cons q pids ih =>
      intro p hp
      rw [List.foldr_cons]
      rcases List.mem_cons.mp hp with rfl | hp
      · exact Nat.le_add_right _ _
      · exact Nat.le_trans (ih p hp) (Nat.le_add_left _ _)
  exact fun n pids => ⟨Nat.succ_pos _, fun h => Nat.not_succ_le_self _ (hle pids _ h)⟩

/-- One instance that is to run, and one that is not. -/
def central : Configuration where
  instances := {
    values := [⟨"central", "/usr/sbin/cbd", "central.json", true, true⟩,
      ⟨"rrd", "/usr/sbin/cbd", "rrd.json", false, true⟩]
    nodup := by decide
    property := by decide }

theorem children_of_run_central :
    ((World.run nextPid [.apply central, .exit 1, .reap 1]).os.children.values.map
        fun c => (c.executable, c.config_file)).Perm [("/usr/sbin/cbd", "central.json")] ∧
      (World.run nextPid [.apply central, .exit 1, .reap 1]).stop.os.children.values = [] :=
  children_of_run fresh_nextPid [.apply central, .exit 1, .reap 1]

/-- Three instances that run. -/
def threeRun : Configuration where
  instances := {
    values := [⟨"central", "/usr/sbin/cbd", "central.json", true, false⟩,
      ⟨"poller", "/usr/sbin/cbd", "poller.json", true, true⟩,
      ⟨"sql", "/usr/sbin/cbd", "sql.json", true, true⟩]
    nodup := by decide
    property := by decide }

/-- One goes on and is told to reload, one has another file, one goes, and a new one runs. -/
def centralReloads : Configuration where
  instances := {
    values := [⟨"central", "/usr/sbin/cbd", "central.json", true, true⟩,
      ⟨"poller", "/usr/sbin/cbd", "other.json", true, true⟩,
      ⟨"rrd", "/usr/sbin/cbd", "rrd.json", true, true⟩]
    nodup := by decide
    property := by decide }

theorem reloaded_of_run_central :
    ((World.run nextPid [.apply threeRun]).apply_new_configuration nextPid centralReloads).os.sent =
        [(2, .term), (4, .term), (1, .hup)] ∧
      Reloaded centralReloads (World.run nextPid [.apply threeRun])
        ((World.run nextPid [.apply threeRun]).apply_new_configuration nextPid centralReloads) :=
  ⟨by decide +kernel, reloaded_of_run fresh_nextPid [.apply threeRun] centralReloads⟩

end CentreonBroker.Watchdog
