import CentreonBroker.Rrd.Output
import Mathlib.Tactic.Cases

/-!
# A replay that fails

The calls of the backend may throw. At the end of a rebuild the list of live values is taken out of
the cache before they are written one by one, so that the first call that throws loses those that
are left.
-/

namespace CentreonBroker.Rrd

/-- How `open` of a file that is there ends. -/
inductive Outcome where
  | ok
  /-- The exception for a file that cannot be opened, which is caught. -/
  | failed
  /-- Any other exception. -/
  | threw
  deriving DecidableEq, Repr

/-- How the calls of the backend for one value end: `open` of a file, `open` of a file that is
created, and `update`. -/
structure Calls where
  opens : Outcome
  creates : Bool
  updates : Bool

namespace Calls

/-- The file of the value is open in the end. None is for an exception. -/
def open_file (c : Calls) (path : List Char) (v : Value) (b : Backend) : Option Backend :=
  match c.opens, b.open_file path with
  | .ok, some b => some b
  | .threw, _ => none
  | _, _ =>
    if c.creates then
      some (b.open_new path v.rrd_len (v.ctime - 1) v.interval v.value_type)
    else none

/-- None of the calls throws further than it is caught. -/
def Pass (c : Calls) (there : Bool) : Prop :=
  (c.opens = .ok ∧ there = true ∨ c.opens ≠ .threw ∧ c.creates = true) ∧ c.updates = true

end Calls

/-- The output, with what the backend was given: how many values it was called for, and those that
it took. -/
structure Faulty where
  output : Output
  attempts : ℕ
  written : List Value

namespace Faulty

variable (fixed : ℚ → List Char) (env : ℕ → Calls)

/-- The value is given to the backend: whether it throws, and the state. -/
def give (v : Value) (s : Faulty) : Bool × Faulty :=
  let c := env s.attempts
  let s := { s with attempts := s.attempts + 1 }
  match c.open_file (s.output.file v.kind v.id) v s.output.backend with
  | none => (true, s)
  | some b =>
    if c.updates then
      (false,
        { s with
          output := { s.output with backend := b.update v.ctime (v.text fixed) }
          written := s.written ++ [v] })
    else (true, { s with output := { s.output with backend := b } })

/-- The cases of a metric and of a status in `write`. -/
def write_value (v : Value) (s : Faulty) : Bool × Faulty :=
  if s.output.writes v.kind then
    let path := s.output.file v.kind v.id
    match v.is_for_rebuild, s.output.rebuild v.kind path with
    | false, some l =>
      (false, { s with output := s.output.setRebuild v.kind path (some (l ++ [v])) })
    | _, _ => s.give fixed env v
  else (false, s)

/-- The loop at the end of a rebuild. -/
def replay : List Value → Faulty → Bool × Faulty
  | [], s => (false, s)
  | v :: l, s =>
    match s.write_value fixed env v with
    | (true, s) => (true, s)
    | (false, s) => replay l s

/-- What is put aside for a graph. -/
def cached (e : Rebuild) (s : Faulty) : List Value :=
  (s.output.rebuild (kindOf e.is_index) (s.output.file (kindOf e.is_index) e.id)).getD []

/-- The end of a rebuild. The list is moved to the stack, and its entry erased. -/
def end_rebuild (e : Rebuild) (s : Faulty) : Bool × Faulty :=
  let kind := kindOf e.is_index
  let path := s.output.file kind e.id
  replay fixed env (s.cached e) { s with output := s.output.setRebuild kind path none }

def write (d : Option Event) (s : Faulty) : Bool × Faulty :=
  match d with
  | none => (false, s)
  | some (.value v) => s.write_value fixed env v
  | some (.rebuild e) =>
    if e.ends then s.end_rebuild fixed env e
    else (false, { s with output := s.output.start_rebuild e })
  | some (.remove_graph e) => (false, { s with output := s.output.remove_graph e })
  | some .other => (false, s)

/-- A run of the output. An event that threw may be written again. -/
def run (s : Faulty) (es : List (Option Event)) : Faulty :=
  es.foldl (fun s d => (s.write fixed env d).2) s

/-! ## What is asked of the end of a rebuild -/

/-- Some values are written. All are when nothing throws; otherwise the others are still held, and
they are written when the end is written again and nothing throws. -/
def Survives (e : Rebuild) (s : Faulty) : Prop :=
  ∃ done rest, s.cached e = done ++ rest ∧
    (s.write fixed env (some (.rebuild e))).2.written = s.written ++ done ∧
    ((s.write fixed env (some (.rebuild e))).1 = false → rest = []) ∧
    ((s.write fixed env (some (.rebuild e))).1 = true →
      (s.write fixed env (some (.rebuild e))).2.cached e = rest ∧
      ∀ env', ((s.write fixed env (some (.rebuild e))).2.write fixed env'
          (some (.rebuild e))).1 = false →
        ((s.write fixed env (some (.rebuild e))).2.write fixed env'
          (some (.rebuild e))).2.written =
            (s.write fixed env (some (.rebuild e))).2.written ++ rest)

/-- The file of the graph is there. -/
def exists_file (e : Rebuild) (s : Faulty) : Bool :=
  (s.output.backend.files (s.output.file (kindOf e.is_index) e.id)).isSome

end Faulty

/-! ## What the caches hold -/

/-- A value is put aside for this path. -/
structure Value.Waits (s : Output) (kind : Kind) (path : List Char) (v : Value) : Prop where
  kind_eq : v.kind = kind
  file_eq : s.file v.kind v.id = path
  live : v.is_for_rebuild = false
  writes : s.writes v.kind = true

def Held (s : Output) : Prop :=
  ∀ kind path l, s.rebuild kind path = some l → ∀ v ∈ l, v.Waits s kind path

namespace Held

variable {s : Output}

/-- Another list for a path, of values that are put aside for it. -/
theorem setRebuild (h : Held s) {kind : Kind} {path : List Char} {l : Option (List Value)}
    (hl : ∀ l', l = some l' → ∀ v ∈ l', v.Waits s kind path) :
    Held (s.setRebuild kind path l) := by
  intro kind' path' l' hl' v hv
  have hwaits : v.Waits s kind' path' := by
    change Function.update s.rebuild kind (Function.update (s.rebuild kind) path l) kind' path' =
      some l' at hl'
    by_cases hkind : kind' = kind
    · subst hkind
      rw [Function.update_self] at hl'
      by_cases hpath : path' = path
      · subst hpath
        rw [Function.update_self] at hl'
        exact hl l' hl' v hv
      · rw [Function.update_of_ne hpath] at hl'
        exact h kind' path' l' hl' v hv
    · rw [Function.update_of_ne hkind] at hl'
      exact h kind' path' l' hl' v hv
  exact ⟨hwaits.kind_eq, hwaits.file_eq, hwaits.live, hwaits.writes⟩

theorem erase (h : Held s) (kind : Kind) (path : List Char) :
    Held (s.setRebuild kind path none) :=
  h.setRebuild fun l' hl' => by cases hl'

/-- The files do not matter. -/
theorem backend (h : Held s) (b : Backend) : Held { s with backend := b } := by
  intro kind path l hl v hv
  have hwaits := h kind path l hl v hv
  exact ⟨hwaits.kind_eq, hwaits.file_eq, hwaits.live, hwaits.writes⟩

end Held

namespace Faulty

variable {fixed : ℚ → List Char} {env : ℕ → Calls}

/-- A value that is not put aside is given to the backend. -/
theorem write_value_cases (v : Value) (s : Faulty) :
    s.output.writes v.kind = false ∧ s.write_value fixed env v = (false, s) ∨
    s.output.writes v.kind = true ∧
      (s.write_value fixed env v = s.give fixed env v ∨
      v.is_for_rebuild = false ∧
        ∃ l, s.output.rebuild v.kind (s.output.file v.kind v.id) = some l ∧
          s.write_value fixed env v =
            (false,
              { s with
                output :=
                  s.output.setRebuild v.kind (s.output.file v.kind v.id) (some (l ++ [v])) })) := by
  rw [write_value]
  by_cases hwrites : s.output.writes v.kind
  · rw [if_pos hwrites]
    refine .inr ⟨hwrites, ?_⟩
    cases hflag : v.is_for_rebuild with
    | true => exact .inl rfl
    | false =>
      cases hl : s.output.rebuild v.kind (s.output.file v.kind v.id) with
      | none => exact .inl (by simp only [hl])
      | some l => exact .inr ⟨rfl, l, rfl, by simp only [hl]⟩
  · rw [if_neg hwrites]
    exact .inl ⟨Bool.eq_false_of_not_eq_true hwrites, rfl⟩

theorem held_give (v : Value) {s : Faulty} (h : Held s.output) :
    Held (s.give fixed env v).2.output := by
  rw [give]
  split
  · exact h
  · split
    · exact h.backend _
    · exact h.backend _

theorem held_write_value (v : Value) {s : Faulty} (h : Held s.output) :
    Held (s.write_value fixed env v).2.output := by
  rcases write_value_cases v s with
    ⟨-, heq⟩ | ⟨hwrites, heq | ⟨hflag, l, hl, heq⟩⟩
  · rw [heq]
    exact h
  · rw [heq]
    exact held_give v h
  · rw [heq]
    refine h.setRebuild ?_
    intro l' hl' w hw
    obtain rfl := Option.some.inj hl'
    rcases List.mem_append.mp hw with hold | hnew
    · exact h _ _ l hl w hold
    · obtain rfl := List.mem_singleton.mp hnew
      exact ⟨rfl, rfl, hflag, hwrites⟩

theorem held_replay (l : List Value) {s : Faulty} (h : Held s.output) :
    Held (s.replay fixed env l).2.output := by
  induction l generalizing s with
  | nil => exact h
  | cons v l ih =>
    have hstep := @held_write_value fixed env v s h
    rw [replay]
    split
    · rename_i s' heq
      rw [heq] at hstep
      exact hstep
    · rename_i s' heq
      rw [heq] at hstep
      exact ih hstep

theorem held_write (d : Option Event) {s : Faulty} (h : Held s.output) :
    Held (s.write fixed env d).2.output := by
  cases d with
  | none => exact h
  | some d =>
    cases d with
    | value v => exact held_write_value v h
    | rebuild e =>
      rw [write]
      split
      · exact held_replay _ (h.erase _ _)
      · refine Held.backend (h.setRebuild ?_) _
        intro l' hl' v hv
        obtain rfl := Option.some.inj hl'
        let path := s.output.file (kindOf e.is_index) e.id
        cases hl : s.output.rebuild (kindOf e.is_index) path with
        | none => rw [hl] at hv; cases hv
        | some l =>
          rw [hl] at hv
          exact h _ _ l hl v hv
    | remove_graph e => exact (h.erase _ _).backend _
    | other => exact h

/-- In every run the caches hold what was put aside. -/
theorem held_run (es : List (Option Event)) {s : Faulty} (h : Held s.output) :
    Held (s.run fixed env es).output := by
  induction es generalizing s with
  | nil => exact h
  | cons d es ih => exact ih (held_write d h)

/-! ## The values of a replay -/

/-- What a replay leaves as it is. -/
structure Frame (s s' : Faulty) : Prop where
  path : s'.output.path = s.output.path
  rebuild : s'.output.rebuild = s.output.rebuild
  writes : s'.output.writes = s.output.writes

theorem give_frame (v : Value) (s : Faulty) : Frame s (s.give fixed env v).2 := by
  rw [give]
  split
  · exact ⟨rfl, rfl, rfl⟩
  · split
    · exact ⟨rfl, rfl, rfl⟩
    · exact ⟨rfl, rfl, rfl⟩

theorem give_attempts (v : Value) (s : Faulty) :
    (s.give fixed env v).2.attempts = s.attempts + 1 := by
  rw [give]
  split
  · rfl
  · split
    · rfl
    · rfl

end Faulty

/-- The file that is open in the end, when there is no further exception. -/
theorem Calls.open_file_isSome (c : Calls) (path : List Char) (v : Value) (b : Backend) :
    (c.open_file path v b).isSome ↔
      (c.opens = .ok ∧ (b.files path).isSome ∨ c.opens ≠ .threw ∧ c.creates = true) := by
  rw [open_file, Backend.open_file]
  cases c.opens <;> cases b.files path <;> cases c.creates <;> simp

/-- It is the one of the value. -/
theorem Calls.files_open_file {c : Calls} {path : List Char} {v : Value} {b b' : Backend}
    (h : c.open_file path v b = some b') : b'.filename = path ∧ (b'.files path).isSome := by
  have hcreated : ∀ b'', b''= b.open_new path v.rrd_len (v.ctime - 1) v.interval v.value_type →
      b''.filename = path ∧ (b''.files path).isSome := by
    rintro b'' rfl
    refine ⟨rfl, ?_⟩
    simp [Backend.open_new]
  have hopened : ∀ b'', b.open_file path = some b'' →
      b''.filename = path ∧ (b''.files path).isSome := by
    intro b'' hb
    obtain ⟨f, hf, rfl⟩ := Option.map_eq_some_iff.mp hb
    exact ⟨rfl, by simp [hf]⟩
  rw [open_file] at h
  split at h
  · rename_i hb
    cases h
    exact hopened b' hb
  · cases h
  · split at h
    · exact hcreated b' (Option.some.inj h).symm
    · cases h

namespace Faulty

variable {fixed : ℚ → List Char} {env : ℕ → Calls}

/-- A value that is given to the backend is written when none of the calls throws further. -/
theorem give_cases (v : Value) (s : Faulty) :
    (env s.attempts).Pass (s.output.backend.files (s.output.file v.kind v.id)).isSome ∧
      (s.give fixed env v).1 = false ∧ (s.give fixed env v).2.written = s.written ++ [v] ∧
      ((s.give fixed env v).2.output.backend.files (s.output.file v.kind v.id)).isSome ∨
    ¬ (env s.attempts).Pass (s.output.backend.files (s.output.file v.kind v.id)).isSome ∧
      (s.give fixed env v).1 = true ∧ (s.give fixed env v).2.written = s.written := by
  rw [Calls.Pass, ← Calls.open_file_isSome, give]
  cases hopen : (env s.attempts).open_file (s.output.file v.kind v.id) v s.output.backend with
  | none =>
    refine .inr ⟨?_, rfl, rfl⟩
    rintro ⟨hsome, -⟩
    cases hsome
  | some b =>
    obtain ⟨hname, hfile⟩ := Calls.files_open_file hopen
    cases hupdates : (env s.attempts).updates with
    | false =>
      refine .inr ⟨?_, rfl, rfl⟩
      rintro ⟨-, htrue⟩
      cases htrue
    | true =>
      refine .inl ⟨⟨rfl, rfl⟩, rfl, rfl, ?_⟩
      show ((b.update v.ctime (v.text fixed)).files _).isSome
      rw [Backend.update, hname]
      simpa using hfile

/-- Each value of the replay has its calls. -/
def Passes (env : ℕ → Calls) (there : Bool) (l : List Value) (s : Faulty) : Prop :=
  ∀ i < l.length, (env (s.attempts + i)).Pass (0 < i || there)

theorem passes_cons {there : Bool} {v : Value} {l : List Value} {s s' : Faulty}
    (hattempts : s'.attempts = s.attempts + 1) :
    s.Passes env there (v :: l) ↔ (env s.attempts).Pass there ∧ s'.Passes env true l := by
  constructor
  · intro h
    refine ⟨?_, ?_⟩
    · have hhead := h 0 (Nat.zero_lt_succ _)
      simpa using hhead
    · intro i hi
      have htail := h (i + 1) (Nat.succ_lt_succ hi)
      rw [hattempts, Nat.add_right_comm, Nat.add_assoc]
      simpa using htail
  · rintro ⟨hhead, htail⟩ i hi
    cases i with
    | zero => simpa using hhead
    | succ i =>
      have hi' := htail i (Nat.lt_of_succ_lt_succ hi)
      rw [hattempts, Nat.add_right_comm, Nat.add_assoc] at hi'
      simpa using hi'

/-- **A replay writes all, or a part of the values before it throws.** -/
theorem replay_cases {kind : Kind} {path : List Char} (l : List Value) {s : Faulty}
    (hnone : s.output.rebuild kind path = none) (hl : ∀ v ∈ l, v.Waits s.output kind path) :
    Frame s (s.replay fixed env l).2 ∧
      (s.Passes env (s.output.backend.files path).isSome l ∧
          (s.replay fixed env l).1 = false ∧
          (s.replay fixed env l).2.written = s.written ++ l ∨
        ¬ s.Passes env (s.output.backend.files path).isSome l ∧
          (s.replay fixed env l).1 = true ∧
          ∃ k < l.length, (s.replay fixed env l).2.written = s.written ++ l.take k) := by
  induction l generalizing s with
  | nil => exact ⟨⟨rfl, rfl, rfl⟩, .inl ⟨nofun, rfl, (List.append_nil _).symm⟩⟩
  | cons v l ih =>
    have hv := hl v List.mem_cons_self
    have hgive : s.write_value fixed env v = s.give fixed env v := by
      rcases @write_value_cases fixed env v s with ⟨hwrites, -⟩ | ⟨-, heq | ⟨-, l', hl', -⟩⟩
      · rw [hv.writes] at hwrites
        cases hwrites
      · exact heq
      · rw [hv.kind_eq, ← hv.kind_eq, hv.file_eq, hv.kind_eq, hnone] at hl'
        cases hl'
    have hattempts := @give_attempts fixed env v s
    have hframe := @give_frame fixed env v s
    have hcalls := @give_cases fixed env v s
    rw [hv.file_eq] at hcalls
    rw [replay, hgive]
    cases hstep : s.give fixed env v with
    | mk threw s' =>
      rw [hstep] at hattempts hframe hcalls
      rcases hcalls with ⟨hpass, hfalse, hwritten, hthere⟩ | ⟨hfail, htrue, hwritten⟩
      · obtain rfl : threw = false := hfalse
        have hl' : ∀ w ∈ l, w.Waits s'.output kind path := by
          intro w hw
          have hwaits := hl w (List.mem_cons_of_mem v hw)
          refine ⟨hwaits.kind_eq, ?_, hwaits.live, ?_⟩
          · rw [Output.file, hframe.path]
            exact hwaits.file_eq
          · rw [hframe.writes]
            exact hwaits.writes
        have hnone' : s'.output.rebuild kind path = none := by rw [hframe.rebuild]; exact hnone
        obtain ⟨hrest, hcases⟩ := ih hnone' hl'
        have hthere : (s'.output.backend.files path).isSome = true := hthere
        rw [hthere] at hcases
        refine ⟨⟨hrest.path.trans hframe.path, hrest.rebuild.trans hframe.rebuild,
          hrest.writes.trans hframe.writes⟩, ?_⟩
        rw [passes_cons hattempts, and_iff_right hpass]
        rcases hcases with ⟨hpasses, hdone, hall⟩ | ⟨hfails, hthrew, k, hk, hpart⟩
        · refine .inl ⟨hpasses, hdone, ?_⟩
          rw [hall, hwritten, List.append_assoc]
          rfl
        · refine .inr ⟨hfails, hthrew, k + 1, Nat.succ_lt_succ hk, ?_⟩
          rw [hpart, hwritten, List.append_assoc]
          rfl
      · obtain rfl : threw = true := htrue
        refine ⟨hframe, .inr ⟨?_, rfl, 0, Nat.zero_lt_succ _, ?_⟩⟩
        · rw [passes_cons hattempts]
          exact fun h => hfail h.1
        · rw [List.take_zero, List.append_nil]
          exact hwritten

/-! ## Without exceptions -/

/-- No call throws. -/
def calm : ℕ → Calls := fun _ => ⟨.ok, true, true⟩

theorem give_calm (v : Value) (s : Faulty) :
    (s.give fixed calm v).1 = false ∧
      (s.give fixed calm v).2.output =
        { s.output with
          backend := ((s.output.backend.open_file (s.output.file v.kind v.id)).getD
            (s.output.backend.open_new (s.output.file v.kind v.id) v.rrd_len (v.ctime - 1)
              v.interval v.value_type)).update v.ctime (v.text fixed) } := by
  have hopen : (calm s.attempts).open_file (s.output.file v.kind v.id) v s.output.backend =
      some ((s.output.backend.open_file (s.output.file v.kind v.id)).getD
        (s.output.backend.open_new (s.output.file v.kind v.id) v.rrd_len (v.ctime - 1)
          v.interval v.value_type)) := by
    rw [Calls.open_file]
    cases s.output.backend.open_file (s.output.file v.kind v.id) <;> rfl
  rw [give]
  simp only [hopen]
  exact ⟨rfl, rfl⟩

theorem write_value_calm (v : Value) (s : Faulty) :
    (s.write_value fixed calm v).1 = false ∧
      (s.write_value fixed calm v).2.output = s.output.write_value fixed v := by
  rw [write_value, Output.write_value]
  by_cases hwrites : s.output.writes v.kind = true
  · rw [if_pos hwrites, if_pos hwrites]
    cases hflag : v.is_for_rebuild with
    | true => exact give_calm v s
    | false =>
      cases hl : s.output.rebuild v.kind (s.output.file v.kind v.id) with
      | none => simpa only [hl] using @give_calm fixed v s
      | some l => simp only [hl, and_self]
  · rw [if_neg hwrites, if_neg hwrites]
    exact ⟨rfl, rfl⟩

theorem replay_calm (l : List Value) (s : Faulty) :
    (s.replay fixed calm l).1 = false ∧
      (s.replay fixed calm l).2.output =
        l.foldl (fun s v => s.write_value fixed v) s.output := by
  induction l generalizing s with
  | nil => exact ⟨rfl, rfl⟩
  | cons v l ih =>
    have hstep := @write_value_calm fixed v s
    rw [replay]
    split
    · rename_i s' heq
      rw [heq] at hstep
      cases hstep.1
    · rename_i s' heq
      rw [heq] at hstep
      rw [List.foldl_cons, ← hstep.2]
      exact ih s'

/-- Without exceptions it is the output that was there before. -/
theorem write_calm (d : Option Event) (s : Faulty) :
    (s.write fixed calm d).1 = false ∧
      (s.write fixed calm d).2.output = (s.output.write fixed d).2 := by
  cases d with
  | none => exact ⟨rfl, rfl⟩
  | some d =>
    cases d with
    | value v => exact write_value_calm v s
    | rebuild e =>
      rw [write, Output.write]
      split
      · exact replay_calm _ _
      · exact ⟨rfl, rfl⟩
    | remove_graph e => exact ⟨rfl, rfl⟩
    | other => exact ⟨rfl, rfl⟩

theorem run_calm (es : List (Option Event)) (s : Faulty) :
    (s.run fixed calm es).output = s.output.run fixed es := by
  induction es generalizing s with
  | nil => rfl
  | cons d es ih =>
    change ((s.write fixed calm d).2.run fixed calm es).output =
      (s.output.write fixed d).2.run fixed es
    rw [ih, (write_calm d s).2]

/-! ## The end of a rebuild -/

/-- The values survive the replay that nothing stops, and no other. -/
theorem survives_iff_passes {s : Faulty} (h : Held s.output) (e : Rebuild) (hends : e.ends = true) :
    s.Survives fixed env e ↔ s.Passes env (s.exists_file e) (s.cached e) := by
  let kind := kindOf e.is_index
  let path := s.output.file kind e.id
  let s₀ : Faulty := { s with output := s.output.setRebuild kind path none }
  have hnone : s₀.output.rebuild kind path = none := by
    simp [s₀, Output.setRebuild]
  have hwaits : ∀ v ∈ s.cached e, v.Waits s₀.output kind path := by
    intro v hv
    rw [cached] at hv
    cases hl : s.output.rebuild kind path with
    | none => rw [hl] at hv; cases hv
    | some l =>
      rw [hl] at hv
      have hold := h kind path l hl v hv
      exact ⟨hold.kind_eq, hold.file_eq, hold.live, hold.writes⟩
  have hwrite : s.write fixed env (some (.rebuild e)) = s₀.replay fixed env (s.cached e) := by
    rw [write, if_pos hends]
    rfl
  obtain ⟨hframe, hcases⟩ := @replay_cases fixed env kind path (s.cached e) s₀ hnone hwaits
  rw [Survives, hwrite]
  rcases hcases with ⟨hpasses, hdone, hall⟩ | ⟨hfails, hthrew, k, hk, hpart⟩
  · refine iff_of_true ⟨s.cached e, [], (List.append_nil _).symm, hall, fun _ => rfl, ?_⟩ hpasses
    intro hthrew
    rw [hdone] at hthrew
    cases hthrew
  · refine iff_of_false ?_ hfails
    rintro ⟨done, rest, hsplit, hwritten, -, hheld⟩
    -- the entry is gone, so that nothing is held
    have hempty : (s₀.replay fixed env (s.cached e)).2.cached e = [] := by
      have hfile : (s₀.replay fixed env (s.cached e)).2.output.file kind e.id = path := by
        rw [Output.file, hframe.path]
        rfl
      rw [cached, hfile, hframe.rebuild, hnone]
      rfl
    have hrest := (hheld hthrew).1
    rw [hempty] at hrest
    rw [← hrest, List.append_nil] at hsplit
    have hlength := congrArg List.length (List.append_cancel_left (hwritten.symm.trans hpart))
    rw [← hsplit, List.length_take] at hlength
    omega

/-- **What is cached survives the end of its rebuild exactly when no call throws**, in every run. -/
theorem survives_iff (fixed : ℚ → List Char) (env : ℕ → Calls) (c : Connector) (b : Backend)
    (es : List (Option Event)) (e : Rebuild) :
    let s := run fixed env ⟨c.open_output b, 0, []⟩ es
    s.Survives fixed env { e with ends := true } ↔
      ∀ i < (s.cached e).length, (env (s.attempts + i)).Pass (0 < i || s.exists_file e) := by
  intro s
  refine survives_iff_passes (held_run es ?_) { e with ends := true } rfl
  intro kind path l hl
  cases hl

/-- The rebuild of metric 1 starts, and a value arrives. Then no file can be opened or created, so
that the end of the rebuild throws. The value is in no file, and the entry that held it is gone. -/
theorem replay_loses :
    let fixed : ℚ → List Char := fun _ => []
    let env : ℕ → Calls := fun _ => ⟨.failed, false, true⟩
    let c : Connector := ⟨"/m/".toList, "/s/".toList, true, true⟩
    let v : Value := .metric ⟨1000, 60, false, 1, 86400, 5, 0⟩
    let s := run fixed env ⟨c.open_output ⟨[], fun _ => none⟩, 0, []⟩
      [some (.rebuild ⟨false, 1, false⟩), some (.value v)]
    s.cached ⟨true, 1, false⟩ = [v] ∧ ¬ s.Survives fixed env ⟨true, 1, false⟩ := by
  intro fixed env c v s
  have hcached : s.cached ⟨true, 1, false⟩ = [v] := by decide +kernel
  refine ⟨hcached, ?_⟩
  have hheld : Held s.output := held_run _ fun kind path l hl => by cases hl
  rw [survives_iff_passes hheld ⟨true, 1, false⟩ rfl, Passes, hcached]
  intro hpasses
  -- the file is created by none of the calls
  rcases (hpasses 0 Nat.zero_lt_one).1 with ⟨hok, -⟩ | ⟨-, hcreates⟩
  · cases hok
  · cases hcreates

end Faulty

end CentreonBroker.Rrd
