import CentreonBroker.Storage.SqlEvents

/-!
# Check commands

A check event writes its command, unless the hash in the cache says that this was done. The cache
has the hash from the event on, whether the command was written or not: the statement finds no row,
or the host of the service is not known. The cached command is the one in the table as long as each
check comes when its row can be written.
-/

namespace CentreonBroker.Storage.SqlEvents

open Caches

/-- What is checked. -/
inductive Target where
  | host (host_id : ℕ)
  | service (host_id service_id : ℕ)
  deriving DecidableEq

def Target.host_id : Target → ℕ
  | .host h => h
  | .service h _ => h

/-- A check that passes the time filter: what is checked, and the command. -/
def Event.check : Event → Option (Target × String)
  | .host_check now hc =>
    if passes now hc then some (.host hc.host_id, hc.command_line) else none
  | .service_check now sc =>
    if passes now sc.toHostCheck then
      some (.service sc.host_id sc.service_id, sc.command_line)
    else none
  | _ => none

def Statement.check : Statement → Option (Target × String)
  | .host_check_update hc => some (.host hc.host_id, hc.command_line)
  | .service_check_update sc => some (.service sc.host_id sc.service_id, sc.command_line)
  | _ => none

/-- The row that the command goes to is found. -/
def Database.has (db : Database) : Target → Bool
  | .host h => db.has_host h
  | .service h s => db.has_service (h, s)

/-- The check command in the tables. -/
def Database.command (db : Database) : Target → Option String
  | .host h => (db.hosts h).bind (·.command_line)
  | .service h s => (db.services (h, s)).bind (·.command_line)

/-- The hash in the cache. -/
def Caches.cmd (s : Caches) : Target → ℕ
  | .host h => s.cache_hst_cmd h
  | .service h sv => s.cache_svc_cmd (h, sv)

/-- The host is known. -/
def Caches.known (s : Caches) (t : Target) : Prop := s.cache_host_instance t.host_id ≠ 0

/-- The host that a service check asks for is known. -/
def Caches.asked (s : Caches) : Target → Prop
  | .host _ => True
  | .service h _ => s.cache_host_instance h ≠ 0

/-! ## Statements -/

variable {c : Columns} {hash : String → ℕ}

variable {db : Database} {st : Statement}

/-- The other statements keep the commands, those on hosts and services as well. -/
theorem command_run (h : st.check = none) (t : Target) :
    (db.run c st).command t = db.command t := by
  cases st with
  | host_check_update hc => cases h
  | service_check_update sc => cases h
  | instance_insupdate id => rfl
  | host_insupdate ht =>
    simp only [Database.run]
    split
    · rfl
    · cases t with
      | service h s => rfl
      | host h =>
        by_cases hid : h = ht.host_id
        · subst hid
          simp [Database.command]
        · simp [Database.command, hid]
  | service_insupdate sv =>
    simp only [Database.run]
    split
    · rfl
    · cases t with
      | host h => rfl
      | service h s =>
        by_cases hid : (h, s) = (sv.host_id, sv.service_id)
        · simp [Database.command, hid]
        · simp [Database.command, Function.update_of_ne hid]
  | _ => cases t <;> rfl

/-- A check writes the command of its row. -/
theorem command_run_check {t : Target} {cmd : String}
    (h : st.check = some (t, cmd)) (hhas : db.has t = true) :
    (db.run c st).command t = some (c.cut_command_line cmd) := by
  cases st with
  | host_check_update hc =>
    cases h
    have hfound : db.has_host hc.host_id = true := hhas
    obtain ⟨row, hrow⟩ := Option.isSome_iff_exists.mp hfound
    simp only [Database.run, Database.command]
    rw [if_pos hfound]
    simp [hrow]
  | service_check_update sc =>
    cases h
    have hfound : db.has_service (sc.host_id, sc.service_id) = true := hhas
    obtain ⟨row, hrow⟩ := Option.isSome_iff_exists.mp hfound
    simp only [Database.run, Database.command]
    rw [if_pos hfound]
    simp [hrow]
  | _ => cases h

/-- And no other one. -/
theorem command_run_ne {t t' : Target} {cmd : String}
    (h : st.check = some (t, cmd)) (hne : t' ≠ t) :
    (db.run c st).command t' = db.command t' := by
  cases st with
  | host_check_update hc =>
    cases h
    simp only [Database.run]
    split
    · cases t' with
      | service h s => rfl
      | host h =>
        have hid : h ≠ hc.host_id := fun heq => hne (congrArg Target.host heq)
        simp [Database.command, hid]
    · rfl
  | service_check_update sc =>
    cases h
    simp only [Database.run]
    split
    · cases t' with
      | host h => rfl
      | service h s =>
        have hid : (h, s) ≠ (sc.host_id, sc.service_id) := by
          intro heq
          cases heq
          exact hne rfl
        simp only [Database.command]
        rw [Function.update_of_ne hid]
    · rfl
  | _ => cases h

theorem command_execute {sts : List Statement} {t : Target}
    (h : ∀ st ∈ sts, ∀ db : Database, (db.run c st).command t = db.command t) :
    (db.execute c sts).command t = db.command t := by
  induction sts generalizing db with
  | nil => rfl
  | cons st sts ih =>
    show ((db.run c st).execute c sts).command t = db.command t
    rw [ih fun st' hst => h st' (List.mem_cons_of_mem st hst), h st List.mem_cons_self]

/-! ## Events -/

/-- An event that is no check, or does not pass the filter, leaves the cached hashes, and none of its
statements is a check. -/
theorem process_of_none (hash : String → ℕ) (s : Caches) {e : Event} (h : e.check = none) :
    (∀ t, (s.process hash e).1.cmd t = s.cmd t) ∧
      ∀ st ∈ (s.process hash e).2, st.check = none := by
  have hnothing : ∀ st ∈ ([] : List Statement), st.check = none := by simp
  have hone : ∀ {st : Statement}, st.check = none → ∀ st' ∈ [st], st'.check = none := by
    intro st hst st' hmem
    rw [List.mem_singleton.mp hmem]
    exact hst
  cases e with
  | «instance» id =>
    refine ⟨fun t => rfl, ?_⟩
    intro st hst
    rcases List.mem_append.mp hst with hclean | hinsert
    · simp only [clean_tables, List.mem_cons, List.not_mem_nil, or_false] at hclean
      rcases hclean with rfl | rfl | rfl | rfl <;> rfl
    · split at hinsert
      · exact hone rfl st hinsert
      · cases hinsert
  | host ht =>
    simp only [process, process_host]
    split
    · exact ⟨fun t => by cases t <;> rfl, hone rfl⟩
    · exact ⟨fun t => rfl, hnothing⟩
  | service sv =>
    simp only [process, process_service]
    split
    · split
      · exact ⟨fun t => rfl, hone rfl⟩
      · exact ⟨fun t => rfl, hnothing⟩
    · exact ⟨fun t => rfl, hnothing⟩
  | host_check now hc =>
    simp only [Event.check] at h
    simp only [process, process_host_check]
    split at h
    · cases h
    · rename_i hpasses
      rw [if_neg hpasses]
      exact ⟨fun t => rfl, hnothing⟩
  | service_check now sc =>
    simp only [Event.check] at h
    simp only [process, process_service_check]
    split at h
    · cases h
    · rename_i hpasses
      rw [if_neg hpasses]
      exact ⟨fun t => rfl, hnothing⟩
  | host_group hg =>
    simp only [process, process_host_group]
    split <;> exact ⟨fun t => by cases t <;> rfl, hone rfl⟩
  | service_group sg =>
    simp only [process, process_service_group]
    split <;> exact ⟨fun t => by cases t <;> rfl, hone rfl⟩
  | host_group_member hgm =>
    simp only [process, process_host_group_member]
    split
    · split
      · refine ⟨fun t => rfl, ?_⟩
        intro st hst
        rcases List.mem_append.mp hst with hgroup | hmember
        · split at hgroup
          · cases hgroup
          · exact hone rfl st hgroup
        · exact hone rfl st hmember
      · exact ⟨fun t => rfl, hnothing⟩
    · exact ⟨fun t => rfl, hone rfl⟩
  | service_group_member sgm =>
    simp only [process, process_service_group_member]
    split
    · refine ⟨fun t => rfl, ?_⟩
      intro st hst
      rcases List.mem_append.mp hst with hgroup | hmember
      · split at hgroup
        · cases hgroup
        · exact hone rfl st hgroup
      · exact hone rfl st hmember
    · exact ⟨fun t => rfl, hone rfl⟩

/-- What a check does: its hash is in the cache afterwards; it is suppressed where the hash was there
before, and else it is written, if the host that is asked for is known. -/
theorem process_of_check (hash : String → ℕ) (s : Caches) {e : Event} {t : Target} {cmd : String}
    (h : e.check = some (t, cmd)) :
    (∀ t', (s.process hash e).1.cmd t' = if t' = t then hash cmd else s.cmd t') ∧
      (∀ st ∈ (s.process hash e).2, st.check = some (t, cmd)) ∧
      (s.cmd t = hash cmd → (s.process hash e).2 = []) ∧
      (s.cmd t ≠ hash cmd → s.asked t → ∃ st, (s.process hash e).2 = [st]) := by
  cases e with
  | host_check now hc =>
    simp only [Event.check] at h
    simp only [process, process_host_check]
    split at h
    · rename_i hpasses
      cases h
      rw [if_pos hpasses]
      by_cases hcmd : s.cache_hst_cmd hc.host_id = hash hc.command_line
      · rw [if_neg (not_not.mpr hcmd)]
        refine ⟨?_, by simp, fun _ => rfl, fun hne => absurd hcmd hne⟩
        intro t'
        split
        · rename_i heq
          rw [heq]
          exact hcmd
        · rfl
      · rw [if_pos hcmd]
        refine ⟨?_, by simp [Statement.check], fun heq => absurd heq hcmd, fun _ _ => ⟨_, rfl⟩⟩
        intro t'
        cases t' with
        | service h' s' => rfl
        | host h' => simp [cmd, Function.update_apply]
    · cases h
  | service_check now sc =>
    simp only [Event.check] at h
    simp only [process, process_service_check]
    split at h
    · rename_i hpasses
      cases h
      rw [if_pos hpasses]
      by_cases hcmd : s.cache_svc_cmd (sc.host_id, sc.service_id) = hash sc.command_line
      · rw [if_neg (not_not.mpr hcmd)]
        refine ⟨?_, by simp, fun _ => rfl, fun hne => absurd hcmd hne⟩
        intro t'
        split
        · rename_i heq
          rw [heq]
          exact hcmd
        · rfl
      · rw [if_pos hcmd]
        refine ⟨?_, ?_, fun heq => absurd heq hcmd, ?_⟩
        · intro t'
          cases t' with
          | host h' => rfl
          | service h' s' => simp [cmd, Function.update_apply]
        · intro st hst
          split at hst
          · rw [List.mem_singleton.mp hst]
            rfl
          · cases hst
        · intro _ hasked
          exact ⟨_, if_pos hasked⟩
    · cases h
  | _ => cases h

/-! ## The cache and the tables -/

/-- Where a check comes, its row can be written, and its hash is not the one of a missing entry. -/
def Ready (hash : String → ℕ) (m : Manager) (e : Event) : Prop :=
  ∀ t cmd, e.check = some (t, cmd) →
    m.db.has t = true ∧ m.caches.asked t ∧ hash cmd ≠ 0

/-- After a check of a host that is known, its command is in the tables, and what the cache suppresses
was there before. -/
def CommandStored (c : Columns) (hash : String → ℕ) (m : Manager) (e : Event) : Prop :=
  ∀ t cmd, e.check = some (t, cmd) →
    (m.caches.known t → (m.step c hash e).db.command t = some (c.cut_command_line cmd)) ∧
      (m.caches.cmd t = hash cmd → m.db.command t = some (c.cut_command_line cmd))

/-- The commands of the checks. -/
def commands (events : List Event) : List String := events.filterMap fun e => e.check.map (·.2)

/-- A hash in the cache is the one of the command in the tables. -/
def Coherent (c : Columns) (hash : String → ℕ) (cmds : List String) (m : Manager) : Prop :=
  ∀ t, m.caches.cmd t ≠ 0 → ∃ cmd ∈ cmds, hash cmd = m.caches.cmd t ∧
    m.db.command t = some (c.cut_command_line cmd)

theorem mem_commands {events : List Event} {e : Event} {t : Target} {cmd : String} (he : e ∈ events)
    (h : e.check = some (t, cmd)) : cmd ∈ commands events := by
  refine List.mem_filterMap.mpr ⟨e, he, ?_⟩
  rw [h]
  rfl

section

variable {cmds : List String} (hhash : ∀ cmd ∈ cmds, ∀ cmd' ∈ cmds, hash cmd = hash cmd' → cmd = cmd')
  {m : Manager} {e : Event} {t : Target} {cmd : String} (hcheck : e.check = some (t, cmd))

include hcheck

/-- A check leaves what is not checked. -/
theorem command_step_ne {t' : Target} (hne : t' ≠ t) :
    (m.step c hash e).db.command t' = m.db.command t' := by
  obtain ⟨-, hall, -⟩ := process_of_check hash m.caches hcheck
  exact command_execute fun st hst _ => command_run_ne (hall st hst) hne

/-- The command of a check that is ready is in the tables afterwards. -/
theorem command_step_written (hready : Ready hash m e) (hcmd : m.caches.cmd t ≠ hash cmd) :
    (m.step c hash e).db.command t = some (c.cut_command_line cmd) := by
  obtain ⟨hhas, hasked, -⟩ := hready t cmd hcheck
  obtain ⟨-, hall, -, hwritten⟩ := process_of_check hash m.caches hcheck
  obtain ⟨st, hst⟩ := hwritten hcmd hasked
  show (m.db.execute c (m.caches.process hash e).2).command t = _
  rw [hst] at hall ⊢
  exact command_run_check (hall st (List.mem_singleton_self st)) hhas

theorem command_step_suppressed (hcmd : m.caches.cmd t = hash cmd) (t' : Target) :
    (m.step c hash e).db.command t' = m.db.command t' := by
  obtain ⟨-, -, hsuppressed, -⟩ := process_of_check hash m.caches hcheck
  show (m.db.execute c (m.caches.process hash e).2).command t' = _
  rw [hsuppressed hcmd]
  rfl

include hhash

/-- What is suppressed is in the tables. -/
theorem command_of_cached (hcoherent : Coherent c hash cmds m) (hmem : cmd ∈ cmds)
    (hready : Ready hash m e) (hcmd : m.caches.cmd t = hash cmd) :
    m.db.command t = some (c.cut_command_line cmd) := by
  obtain ⟨-, -, hzero⟩ := hready t cmd hcheck
  obtain ⟨cmd', hmem', heq, hstored⟩ := hcoherent t (by rw [hcmd]; exact hzero)
  have hsame := hhash cmd' hmem' cmd hmem (by rw [heq, hcmd])
  rw [hsame] at hstored
  exact hstored

end

/-- **The cache stays coherent** under an event that is ready. -/
theorem coherent_step {cmds : List String}
    (hhash : ∀ cmd ∈ cmds, ∀ cmd' ∈ cmds, hash cmd = hash cmd' → cmd = cmd') {m : Manager} {e : Event}
    (hmem : ∀ t cmd, e.check = some (t, cmd) → cmd ∈ cmds) (hcoherent : Coherent c hash cmds m)
    (hready : Ready hash m e) : Coherent c hash cmds (m.step c hash e) := by
  intro t hcmd
  cases hcheck : e.check with
  | none =>
    obtain ⟨hsame, hother⟩ := process_of_none hash m.caches hcheck
    have hcommand : (m.step c hash e).db.command t = m.db.command t :=
      command_execute fun st hst _ => command_run (hother st hst) t
    have hcached : (m.step c hash e).caches.cmd t = m.caches.cmd t := hsame t
    rw [hcached] at hcmd ⊢
    rw [hcommand]
    exact hcoherent t hcmd
  | some p =>
    obtain ⟨t', cmd⟩ := p
    obtain ⟨hcaches, -⟩ := process_of_check hash m.caches hcheck
    have hcached : (m.step c hash e).caches.cmd t = if t = t' then hash cmd else m.caches.cmd t :=
      hcaches t
    rw [hcached] at hcmd ⊢
    by_cases ht : t = t'
    · subst ht
      rw [if_pos rfl]
      refine ⟨cmd, hmem t cmd hcheck, rfl, ?_⟩
      by_cases hsuppressed : m.caches.cmd t = hash cmd
      · rw [command_step_suppressed hcheck hsuppressed]
        exact command_of_cached hhash hcheck hcoherent (hmem t cmd hcheck) hready hsuppressed
      · exact command_step_written hcheck hready hsuppressed
    · rw [if_neg ht] at hcmd ⊢
      rw [command_step_ne hcheck ht]
      exact hcoherent t hcmd

/-- **The command of each check is stored** in a run in which each check comes when its row can be
written. -/
theorem command_stored_of_ready (c : Columns) (hash : String → ℕ) (db : Database) (events : List Event)
    (hhash : ∀ cmd ∈ commands events, ∀ cmd' ∈ commands events, hash cmd = hash cmd' → cmd = cmd')
    (h : Manager.Always c hash (Ready hash) events (.start db)) :
    Manager.Always c hash (CommandStored c hash) events (.start db) := by
  refine Manager.always_of_invariant c hash (I := Coherent c hash (commands events)) ?_ ?_ ?_ h
  · intro t hcmd
    cases t <;> exact absurd rfl hcmd
  · intro m e he hcoherent hready
    exact coherent_step hhash (fun t cmd => mem_commands he) hcoherent hready
  · intro m e he hcoherent hready t cmd hcheck
    have hcached := command_of_cached hhash hcheck hcoherent (mem_commands he hcheck) hready
    refine ⟨fun _ => ?_, hcached⟩
    by_cases hsuppressed : m.caches.cmd t = hash cmd
    · rw [command_step_suppressed hcheck hsuppressed]
      exact hcached hsuppressed
    · exact command_step_written hcheck hready hsuppressed

def aCheck (command_line : String) : Event := .host_check 0 ⟨true, 0, command_line, 7, 0⟩

/-- The second check is suppressed, the third is not. -/
theorem command_stored_of_ready_one :
    Manager.Always wholeColumns String.length (CommandStored wholeColumns String.length)
      [aHost, aCheck "ping", aCheck "ping", aCheck "http2"] (.start onePoller) := by
  refine command_stored_of_ready wholeColumns String.length onePoller _ ?_ ?_
  · decide
  · refine (Manager.always_cons _ _).mpr ⟨?_, (Manager.always_cons _ _).mpr ⟨?_,
      (Manager.always_cons _ _).mpr ⟨?_, (Manager.always_cons _ _).mpr ⟨?_,
        Manager.always_nil _ _ _ _⟩⟩⟩⟩
    · intro t cmd h
      cases h
    all_goals
      intro t cmd h
      cases h
      exact ⟨by decide, trivial, by decide⟩

/-- A check that comes before its host keeps the next one from being written. -/
theorem not_command_stored : ¬ ∀ c hash db events,
    (∀ cmd ∈ commands events, ∀ cmd' ∈ commands events, hash cmd = hash cmd' → cmd = cmd') →
      Manager.Always c hash (CommandStored c hash) events (.start db) := by
  intro h
  have hrun := h wholeColumns String.length onePoller [aCheck "ping", aHost, aCheck "ping"] (by decide)
  have hlast := hrun [aCheck "ping", aHost] (aCheck "ping") [] rfl (.host 7) "ping" rfl
  have hstored := hlast.1 (Nat.succ_ne_zero 0)
  cases hstored

end CentreonBroker.Storage.SqlEvents
