import Mathlib

/-!
# Hosts, checks and groups in SQL

The conflict manager turns the events of the pollers into statements, and remembers in caches what
the statements are about: the poller of each host, the last command of each check, and the groups
that exist. A cache follows the event, and the tables follow the statements.

An identifier is unsigned and bound as it is, also where it is 0. A statement that breaks a constraint
of its table (a row that it refers to and that does not exist) changes nothing.
-/

namespace CentreonBroker.Storage.SqlEvents

/-! ## Events -/

/-- `neb::host`. -/
structure Host where
  host_alias : String
  enabled : Bool
  host_id : ℕ
  poller_id : ℕ

/-- `neb::service`. -/
structure Service where
  host_id : ℕ
  host_name : String
  service_id : ℕ

/-- `neb::host_check`. -/
structure HostCheck where
  active_checks_enabled : Bool
  check_type : ℤ
  command_line : String
  host_id : ℕ
  next_check : ℤ

/-- `neb::service_check`. -/
structure ServiceCheck extends HostCheck where
  service_id : ℕ

/-- `neb::host_group` and `neb::service_group`. -/
structure Group where
  enabled : Bool
  id : ℕ
  name : String
  poller_id : ℕ

/-- `neb::host_group_member`. -/
structure GroupMember where
  enabled : Bool
  group_id : ℕ
  group_name : String
  host_id : ℕ
  poller_id : ℕ

/-- `neb::service_group_member`. -/
structure ServiceGroupMember extends GroupMember where
  service_id : ℕ

/-- An event; a check comes with the time at which it is processed. -/
inductive Event where
  | instance (poller_id : ℕ)
  | host (h : Host)
  | service (s : Service)
  | host_check (now : ℤ) (hc : HostCheck)
  | service_check (now : ℤ) (sc : ServiceCheck)
  | host_group (hg : Group)
  | host_group_member (hgm : GroupMember)
  | service_group (sg : Group)
  | service_group_member (sgm : ServiceGroupMember)

/-! ## Statements -/

inductive Statement where
  /-- `DELETE hosts_hostgroups FROM hosts_hostgroups LEFT JOIN hosts … WHERE hosts.instance_id={}` -/
  | clean_hostgroup_members (instance_id : ℕ)
  | clean_servicegroup_members (instance_id : ℕ)
  /-- `DELETE hg FROM hostgroups AS hg LEFT JOIN hosts_hostgroups AS hhg … IS NULL` -/
  | clean_empty_hostgroups
  | clean_empty_servicegroups
  | instance_insupdate (instance_id : ℕ)
  | host_insupdate (h : Host)
  | service_insupdate (s : Service)
  | host_check_update (hc : HostCheck)
  | service_check_update (sc : ServiceCheck)
  | host_group_insupdate (hg : Group)
  /-- `… WHERE hosts_hostgroups.hostgroup_id={} AND hosts.instance_id={}` -/
  | host_group_clear (hg : Group)
  | host_group_member_insert (hgm : GroupMember)
  | host_group_member_delete (hgm : GroupMember)
  | service_group_insupdate (sg : Group)
  | service_group_clear (sg : Group)
  | service_group_member_insert (sgm : ServiceGroupMember)
  | service_group_member_delete (sgm : ServiceGroupMember)

/-- A row of `hosts`. -/
structure HostRow where
  instance_id : ℕ
  command_line : Option String

/-- A row of `services`. -/
structure ServiceRow where
  command_line : Option String

/-- A table of groups and the one of their members: `hostgroups` and `hosts_hostgroups`, or
`servicegroups` and `services_servicegroups`. -/
structure Groups (Member : Type) where
  rows : ℕ → Option String
  members : List (Member × ℕ)

structure Database where
  /-- The column `deleted` of `instances`. -/
  instances : ℕ → Option Bool
  hosts : ℕ → Option HostRow
  services : ℕ × ℕ → Option ServiceRow
  hostgroups : Groups ℕ
  servicegroups : Groups (ℕ × ℕ)

/-- What the columns keep of a text. -/
structure Columns where
  cut_command_line : String → String
  cut_group_name : String → String

namespace Groups

variable {Member : Type} [DecidableEq Member]

/-- The members whose host has this instance go. -/
def clean_members (instance_of : Member → Option ℕ) (instance_id : ℕ) (G : Groups Member) :
    Groups Member :=
  { G with members := G.members.filter fun m => instance_of m.1 ≠ some instance_id }

/-- The groups without members go. -/
def clean_empty (G : Groups Member) : Groups Member :=
  { G with rows := fun g => if G.members.any (·.2 = g) then G.rows g else none }

def insupdate (c : Columns) (G : Groups Member) (g : Group) : Groups Member :=
  { G with rows := Function.update G.rows g.id (some (c.cut_group_name g.name)) }

/-- The members of a group whose host has the instance of the event go. -/
def clear (instance_of : Member → Option ℕ) (G : Groups Member) (g : Group) : Groups Member :=
  { G with members := G.members.filter fun m =>
      ¬ (m.2 = g.id ∧ instance_of m.1 = some g.poller_id) }

/-- A member is inserted for a group that exists, where it is `present` in its own table. -/
def member_insert (present : Bool) (G : Groups Member) (m : Member × ℕ) : Groups Member :=
  if present ∧ (G.rows m.2).isSome ∧ m ∉ G.members then { G with members := G.members ++ [m] }
  else G

def member_delete (G : Groups Member) (m : Member × ℕ) : Groups Member :=
  { G with members := G.members.filter (· ≠ m) }

end Groups

namespace Database

def instance_of (db : Database) (host_id : ℕ) : Option ℕ := (db.hosts host_id).map (·.instance_id)

/-- The host is found by a statement. -/
def has_host (db : Database) (host_id : ℕ) : Bool := (db.hosts host_id).isSome

def has_service (db : Database) (id : ℕ × ℕ) : Bool := (db.services id).isSome

/-- What a statement makes of the tables. -/
def run (c : Columns) (db : Database) : Statement → Database
  | .clean_hostgroup_members id =>
    { db with hostgroups := db.hostgroups.clean_members db.instance_of id }
  | .clean_servicegroup_members id =>
    { db with servicegroups := db.servicegroups.clean_members (db.instance_of ·.1) id }
  | .clean_empty_hostgroups => { db with hostgroups := db.hostgroups.clean_empty }
  | .clean_empty_servicegroups => { db with servicegroups := db.servicegroups.clean_empty }
  | .instance_insupdate id =>
    { db with instances := Function.update db.instances id (some ((db.instances id).getD false)) }
  | .host_insupdate h =>
    if (db.instances h.poller_id).isNone then db
    else
      let row : HostRow := ⟨h.poller_id, (db.hosts h.host_id).bind (·.command_line)⟩
      { db with hosts := Function.update db.hosts h.host_id (some row) }
  | .service_insupdate s =>
    let id := (s.host_id, s.service_id)
    if (db.hosts s.host_id).isNone then db
    else
      let row : ServiceRow := ⟨(db.services id).bind (·.command_line)⟩
      { db with services := Function.update db.services id (some row) }
  | .host_check_update hc =>
    let command_line := some (c.cut_command_line hc.command_line)
    let row := (db.hosts hc.host_id).map fun r => { r with command_line := command_line }
    if db.has_host hc.host_id then { db with hosts := Function.update db.hosts hc.host_id row } else db
  | .service_check_update sc =>
    let id := (sc.host_id, sc.service_id)
    let command_line := some (c.cut_command_line sc.command_line)
    let row := (db.services id).map fun r => { r with command_line := command_line }
    if db.has_service id then { db with services := Function.update db.services id row } else db
  | .host_group_insupdate hg => { db with hostgroups := db.hostgroups.insupdate c hg }
  | .host_group_clear hg => { db with hostgroups := db.hostgroups.clear db.instance_of hg }
  | .host_group_member_insert hgm =>
    let present := db.has_host hgm.host_id
    { db with hostgroups := db.hostgroups.member_insert present (hgm.host_id, hgm.group_id) }
  | .host_group_member_delete hgm =>
    { db with hostgroups := db.hostgroups.member_delete (hgm.host_id, hgm.group_id) }
  | .service_group_insupdate sg => { db with servicegroups := db.servicegroups.insupdate c sg }
  | .service_group_clear sg =>
    { db with servicegroups := db.servicegroups.clear (db.instance_of ·.1) sg }
  | .service_group_member_insert sgm =>
    let id := (sgm.host_id, sgm.service_id)
    { db with servicegroups := db.servicegroups.member_insert (db.has_service id) (id, sgm.group_id) }
  | .service_group_member_delete sgm =>
    let id := (sgm.host_id, sgm.service_id)
    { db with servicegroups := db.servicegroups.member_delete (id, sgm.group_id) }

def execute (c : Columns) (db : Database) (sts : List Statement) : Database := sts.foldl (run c) db

end Database

/-! ## The caches -/

/-- The caches; a map that is read with `operator[]` has 0 where it has no entry. -/
structure Caches where
  cache_deleted_instance_id : ℕ → Bool
  cache_host_instance : ℕ → ℕ
  cache_hst_cmd : ℕ → ℕ
  cache_svc_cmd : ℕ × ℕ → ℕ
  hostgroup_cache : ℕ → Bool
  servicegroup_cache : ℕ → Bool

namespace Caches

/-- `_load_caches`. -/
def load (db : Database) : Caches where
  cache_deleted_instance_id i := db.instances i = some true
  cache_host_instance h := (db.instance_of h).getD 0
  cache_hst_cmd _ := 0
  cache_svc_cmd _ := 0
  hostgroup_cache g := (db.hostgroups.rows g).isSome
  servicegroup_cache g := (db.servicegroups.rows g).isSome

def is_valid_poller (s : Caches) (instance_id : ℕ) : Bool := !s.cache_deleted_instance_id instance_id

/-- The statements of `_clean_tables` on these tables. -/
def clean_tables (instance_id : ℕ) : List Statement :=
  [.clean_hostgroup_members instance_id, .clean_servicegroup_members instance_id,
    .clean_empty_hostgroups, .clean_empty_servicegroups]

/-- `_process_instance`. -/
def process_instance (s : Caches) (poller_id : ℕ) : Caches × List Statement :=
  (s, clean_tables poller_id ++
    if s.is_valid_poller poller_id then [.instance_insupdate poller_id] else [])

/-- `_process_host`. -/
def process_host (s : Caches) (h : Host) : Caches × List Statement :=
  if s.is_valid_poller h.poller_id ∧ h.host_id ≠ 0 ∧ h.host_alias ≠ "" then
    let instance_id := if h.enabled then h.poller_id else 0
    ({ s with cache_host_instance := Function.update s.cache_host_instance h.host_id instance_id },
      [.host_insupdate h])
  else (s, [])

/-- `_process_service`. -/
def process_service (s : Caches) (sv : Service) : Caches × List Statement :=
  if s.cache_host_instance sv.host_id ≠ 0 then
    if sv.host_id ≠ 0 ∧ sv.service_id ≠ 0 ∧ sv.host_name ≠ "" then (s, [.service_insupdate sv])
    else (s, [])
  else (s, [])

/-- The time filter of the checks. -/
def passes (now : ℤ) (hc : HostCheck) : Bool :=
  hc.check_type ≠ 0 || !hc.active_checks_enabled || now - 5 * 60 ≤ hc.next_check || hc.next_check = 0

/-- `_process_host_check`. -/
def process_host_check (hash : String → ℕ) (s : Caches) (now : ℤ) (hc : HostCheck) :
    Caches × List Statement :=
  if passes now hc then
    let str_hash := hash hc.command_line
    if s.cache_hst_cmd hc.host_id ≠ str_hash then
      ({ s with cache_hst_cmd := Function.update s.cache_hst_cmd hc.host_id str_hash },
        [.host_check_update hc])
    else (s, [])
  else (s, [])

/-- `_process_service_check`. -/
def process_service_check (hash : String → ℕ) (s : Caches) (now : ℤ) (sc : ServiceCheck) :
    Caches × List Statement :=
  if passes now sc.toHostCheck then
    let str_hash := hash sc.command_line
    if s.cache_svc_cmd (sc.host_id, sc.service_id) ≠ str_hash then
      ({ s with cache_svc_cmd := Function.update s.cache_svc_cmd (sc.host_id, sc.service_id) str_hash },
        if s.cache_host_instance sc.host_id ≠ 0 then [.service_check_update sc] else [])
    else (s, [])
  else (s, [])

/-- `_process_host_group`. -/
def process_host_group (s : Caches) (hg : Group) : Caches × List Statement :=
  if hg.enabled then
    ({ s with hostgroup_cache := Function.update s.hostgroup_cache hg.id true },
      [.host_group_insupdate hg])
  else
    ({ s with hostgroup_cache := Function.update s.hostgroup_cache hg.id false },
      [.host_group_clear hg])

/-- `_process_host_group_member`. -/
def process_host_group_member (s : Caches) (hgm : GroupMember) : Caches × List Statement :=
  if hgm.enabled then
    if s.cache_host_instance hgm.host_id ≠ 0 then
      let hg : Group := ⟨true, hgm.group_id, hgm.group_name, s.cache_host_instance hgm.host_id⟩
      (s, (if s.hostgroup_cache hgm.group_id then [] else [.host_group_insupdate hg]) ++
        [.host_group_member_insert hgm])
    else (s, [])
  else (s, [.host_group_member_delete hgm])

/-- `_process_service_group`. -/
def process_service_group (s : Caches) (sg : Group) : Caches × List Statement :=
  if sg.enabled then
    ({ s with servicegroup_cache := Function.update s.servicegroup_cache sg.id true },
      [.service_group_insupdate sg])
  else
    ({ s with servicegroup_cache := Function.update s.servicegroup_cache sg.id false },
      [.service_group_clear sg])

/-- `_process_service_group_member`, which does not ask for the host. -/
def process_service_group_member (s : Caches) (sgm : ServiceGroupMember) : Caches × List Statement :=
  if sgm.enabled then
    let sg : Group := ⟨true, sgm.group_id, sgm.group_name, sgm.poller_id⟩
    (s, (if s.servicegroup_cache sgm.group_id then [] else [.service_group_insupdate sg]) ++
      [.service_group_member_insert sgm])
  else (s, [.service_group_member_delete sgm])

def process (hash : String → ℕ) (s : Caches) : Event → Caches × List Statement
  | .instance id => s.process_instance id
  | .host h => s.process_host h
  | .service sv => s.process_service sv
  | .host_check now hc => s.process_host_check hash now hc
  | .service_check now sc => s.process_service_check hash now sc
  | .host_group hg => s.process_host_group hg
  | .host_group_member hgm => s.process_host_group_member hgm
  | .service_group sg => s.process_service_group sg
  | .service_group_member sgm => s.process_service_group_member sgm

end Caches

/-! ## Runs -/

/-- The caches, and the tables that the statements have made. -/
structure Manager where
  caches : Caches
  db : Database

namespace Manager

/-- The start of the conflict manager. -/
def start (db : Database) : Manager := ⟨Caches.load db, db⟩

variable (c : Columns) (hash : String → ℕ)

def statements (m : Manager) (e : Event) : List Statement := (m.caches.process hash e).2

def step (m : Manager) (e : Event) : Manager where
  caches := (m.caches.process hash e).1
  db := m.db.execute c (m.statements hash e)

def run (events : List Event) (m : Manager) : Manager := events.foldl (step c hash) m

/-- `P` holds of each event of the run and the state that it comes in. -/
def Always (P : Manager → Event → Prop) (events : List Event) (m : Manager) : Prop :=
  ∀ pre e post, events = pre ++ e :: post → P (m.run c hash pre) e

theorem always_nil (P : Manager → Event → Prop) (m : Manager) : Always c hash P [] m := by
  intro pre e post hsplit
  simp at hsplit

theorem always_cons {P : Manager → Event → Prop} {e : Event} {events : List Event} {m : Manager} :
    Always c hash P (e :: events) m ↔ P m e ∧ Always c hash P events (m.step c hash e) := by
  constructor
  · intro h
    refine ⟨h [] e events rfl, ?_⟩
    intro pre e' post hsplit
    exact h (e :: pre) e' post (by rw [hsplit]; rfl)
  · intro ⟨hfirst, hrest⟩ pre e' post hsplit
    cases pre with
    | nil =>
      obtain ⟨rfl, -⟩ := List.cons.inj hsplit
      exact hfirst
    | cons e'' pre =>
      obtain ⟨rfl, htail⟩ := List.cons.inj hsplit
      exact hrest pre e' post htail

/-- What follows from an invariant that each event keeps. -/
theorem always_of_invariant {I : Manager → Prop} {P Q : Manager → Event → Prop} {events : List Event}
    {m : Manager} (hinit : I m) (hstep : ∀ m, ∀ e ∈ events, I m → P m e → I (m.step c hash e))
    (hinv : ∀ m, ∀ e ∈ events, I m → P m e → Q m e) (h : Always c hash P events m) :
    Always c hash Q events m := by
  induction events generalizing m with
  | nil => exact always_nil c hash Q m
  | cons e events ih =>
    obtain ⟨hP, hrest⟩ := (always_cons c hash).mp h
    refine (always_cons c hash).mpr ⟨hinv m e List.mem_cons_self hinit hP, ?_⟩
    refine ih (hstep m e List.mem_cons_self hinit hP) ?_ ?_ hrest
    · intro m' e' he'
      exact hstep m' e' (List.mem_cons_of_mem e he')
    · intro m' e' he'
      exact hinv m' e' (List.mem_cons_of_mem e he')

end Manager

/-! ## A small database -/

/-- One poller, and no host yet. -/
def onePoller : Database where
  instances := Function.update (fun _ => none) 1 (some false)
  hosts _ := none
  services _ := none
  hostgroups := ⟨fun _ => none, []⟩
  servicegroups := ⟨fun _ => none, []⟩

def wholeColumns : Columns := ⟨id, id⟩

def aHost : Event := .host ⟨"host", true, 7, 1⟩

end CentreonBroker.Storage.SqlEvents
