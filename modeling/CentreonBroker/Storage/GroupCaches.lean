import CentreonBroker.Storage.SqlEvents

/-!
# Group caches

A member is inserted with a reference to its group, which is created before when it is not in the
cache. The cache follows the group events. When a poller starts, its members go, and all groups that
have no members then go as well, whoever they belong to; they stay in the cache. The references hold
as long as no group of the cache is emptied in this way.
-/

namespace CentreonBroker.Storage.SqlEvents

open Manager

/-- The group that a member insertion refers to exists. -/
def Statement.fits (db : Database) : Statement → Prop
  | .host_group_member_insert hgm => (db.hostgroups.rows hgm.group_id).isSome = true
  | .service_group_member_insert sgm => (db.servicegroups.rows sgm.group_id).isSome = true
  | _ => True

/-- Each statement fits when it is run. -/
def Fits (c : Columns) : Database → List Statement → Prop
  | _, [] => True
  | db, st :: sts => st.fits db ∧ Fits c (db.run c st) sts

/-- The statements on the tables of groups. -/
def Statement.groups : Statement → Bool
  | .instance_insupdate _ => false
  | .host_insupdate _ => false
  | .service_insupdate _ => false
  | .host_check_update _ => false
  | .service_check_update _ => false
  | _ => true

/-- Each group of a cache exists. -/
structure Known (m : Manager) : Prop where
  hostgroups : ∀ g, m.caches.hostgroup_cache g = true → (m.db.hostgroups.rows g).isSome = true
  servicegroups : ∀ g, m.caches.servicegroup_cache g = true →
    (m.db.servicegroups.rows g).isSome = true

/-- A group that keeps a member when the ones of an instance go. -/
def Groups.Kept {Member : Type} (instance_of : Member → Option ℕ) (instance_id : ℕ)
    (G : Groups Member) (g : ℕ) : Prop :=
  ∃ x ∈ G.members, x.2 = g ∧ instance_of x.1 ≠ some instance_id

/-- The start of a poller empties no group of the caches. -/
def Keeps (m : Manager) : Event → Prop
  | .instance id =>
    (∀ g, m.caches.hostgroup_cache g = true → m.db.hostgroups.Kept m.db.instance_of id g) ∧
    ∀ g, m.caches.servicegroup_cache g = true →
      m.db.servicegroups.Kept (m.db.instance_of ·.1) id g
  | _ => True

/-- The groups that an event refers to exist, and so do those of the caches. -/
def GroupsExist (c : Columns) (hash : String → ℕ) (m : Manager) (e : Event) : Prop :=
  Fits c m.db (m.statements hash e) ∧ Known m

/-! ## Tables -/

namespace Groups

variable {Member : Type} {c : Columns} {G : Groups Member}

@[simp] theorem rows_member_insert [DecidableEq Member] (present : Bool) (m : Member × ℕ) :
    (G.member_insert present m).rows = G.rows := by
  unfold member_insert
  split <;> rfl

@[simp] theorem rows_member_delete [DecidableEq Member] (m : Member × ℕ) :
    (G.member_delete m).rows = G.rows := rfl

/-- A group that exists goes on to exist. -/
theorem rows_insupdate {g : ℕ} (g' : Group) (h : (G.rows g).isSome = true) :
    ((G.insupdate c g').rows g).isSome = true := by
  by_cases hg : g = g'.id
  · subst hg
    simp [insupdate]
  · simp [insupdate, hg, h]

theorem rows_insupdate_self (g' : Group) : ((G.insupdate c g').rows g'.id).isSome = true := by
  simp [insupdate]

/-- A group that keeps a member is not empty after the members of the instance went. -/
theorem rows_clean {instance_of : Member → Option ℕ} {id g : ℕ} (hkept : G.Kept instance_of id g) :
    (((G.clean_members instance_of id).clean_empty).rows g) = G.rows g := by
  obtain ⟨x, hx, hg, hne⟩ := hkept
  refine if_pos (List.any_eq_true.mpr ⟨x, ?_, by simpa using hg⟩)
  exact List.mem_filter.mpr ⟨hx, by simpa using hne⟩

end Groups

variable {c : Columns} {hash : String → ℕ}

/-- The other statements leave the groups. -/
theorem groups_run (c : Columns) (db : Database) {st : Statement} (h : st.groups = false) :
    (db.run c st).hostgroups = db.hostgroups ∧ (db.run c st).servicegroups = db.servicegroups := by
  cases st with
  | instance_insupdate id => exact ⟨rfl, rfl⟩
  | host_insupdate ht | service_insupdate sv | host_check_update hc | service_check_update sc =>
    simp only [Database.run]
    split <;> exact ⟨rfl, rfl⟩
  | _ => cases h

theorem groups_execute (c : Columns) (db : Database) {sts : List Statement} (h : ∀ st ∈ sts, st.groups = false) :
    (db.execute c sts).hostgroups = db.hostgroups ∧
      (db.execute c sts).servicegroups = db.servicegroups ∧ Fits c db sts := by
  induction sts generalizing db with
  | nil => exact ⟨rfl, rfl, trivial⟩
  | cons st sts ih =>
    obtain ⟨hhost, hservice⟩ := groups_run c db (h st List.mem_cons_self)
    obtain ⟨hhosts, hservices, hfits⟩ :=
      ih (db.run c st) fun st' hst => h st' (List.mem_cons_of_mem st hst)
    refine ⟨hhosts.trans hhost, hservices.trans hservice, ?_, hfits⟩
    cases st with
    | host_group_member_insert _ | service_group_member_insert _ =>
      exact Bool.noConfusion (h _ List.mem_cons_self)
    | _ => trivial

theorem fits_append {db : Database} {as bs : List Statement} :
    Fits c db (as ++ bs) ↔ Fits c db as ∧ Fits c (db.execute c as) bs := by
  induction as generalizing db with
  | nil => exact ⟨fun h => ⟨trivial, h⟩, And.right⟩
  | cons st as ih =>
    show st.fits db ∧ Fits c (db.run c st) (as ++ bs) ↔ _
    rw [ih, ← and_assoc]
    rfl

/-! ## Events -/

section

variable {m : Manager}

/-- An event without statements on the groups. -/
theorem known_of_others {e : Event} (hknown : Known m)
    (hhost : (m.step c hash e).caches.hostgroup_cache = m.caches.hostgroup_cache)
    (hservice : (m.step c hash e).caches.servicegroup_cache = m.caches.servicegroup_cache)
    (h : ∀ st ∈ m.statements hash e, st.groups = false) :
    Fits c m.db (m.statements hash e) ∧ Known (m.step c hash e) := by
  obtain ⟨hhosts, hservices, hfits⟩ := groups_execute c m.db h
  refine ⟨hfits, ?_, ?_⟩
  · intro g hcache
    rw [hhost] at hcache
    show ((m.db.execute c (m.statements hash e)).hostgroups.rows g).isSome = true
    rw [hhosts]
    exact hknown.hostgroups g hcache
  · intro g hcache
    rw [hservice] at hcache
    show ((m.db.execute c (m.statements hash e)).servicegroups.rows g).isSome = true
    rw [hservices]
    exact hknown.servicegroups g hcache

/-- A poller that starts leaves the groups of the caches, if they keep a member. -/
theorem known_instance {id : ℕ} (hknown : Known m) (hkeeps : Keeps m (.instance id)) :
    Fits c m.db (m.statements hash (.instance id)) ∧ Known (m.step c hash (.instance id)) := by
  obtain ⟨hhost, hservice⟩ := hkeeps
  generalize htail : (if m.caches.is_valid_poller id then [Statement.instance_insupdate id] else []) =
    tail
  have hothers : ∀ st ∈ tail, st.groups = false := by
    intro st hst
    rw [← htail] at hst
    split at hst
    · rw [List.mem_singleton.mp hst]
      rfl
    · cases hst
  have hstatements : m.statements hash (.instance id) = Caches.clean_tables id ++ tail := by
    rw [← htail]
    rfl
  have hdb : (m.step c hash (.instance id)).db =
      (m.db.execute c (Caches.clean_tables id)).execute c tail := by
    show m.db.execute c (m.statements hash (.instance id)) = _
    rw [hstatements, Database.execute, List.foldl_append]
    rfl
  obtain ⟨hhosts, hservices, hfits⟩ :=
    groups_execute c (m.db.execute c (Caches.clean_tables id)) hothers
  refine ⟨?_, ?_, ?_⟩
  · rw [hstatements, fits_append]
    exact ⟨⟨trivial, trivial, trivial, trivial, trivial⟩, hfits⟩
  · intro g hcache
    rw [hdb, hhosts]
    refine (congrArg Option.isSome (Groups.rows_clean (hhost g hcache))).trans ?_
    exact hknown.hostgroups g hcache
  · intro g hcache
    rw [hdb, hservices]
    refine (congrArg Option.isSome (Groups.rows_clean (hservice g hcache))).trans ?_
    exact hknown.servicegroups g hcache

theorem known_host_group {hg : Group} (hknown : Known m) :
    Fits c m.db (m.statements hash (.host_group hg)) ∧ Known (m.step c hash (.host_group hg)) := by
  simp only [Manager.step, statements, Caches.process, Caches.process_host_group]
  split
  · refine ⟨⟨trivial, trivial⟩, ?_, hknown.servicegroups⟩
    intro g hcache
    by_cases hid : g = hg.id
    · subst hid
      exact Groups.rows_insupdate_self _
    · simp only [Function.update_of_ne hid] at hcache
      exact Groups.rows_insupdate hg (hknown.hostgroups g hcache)
  · refine ⟨⟨trivial, trivial⟩, ?_, hknown.servicegroups⟩
    intro g hcache
    by_cases hid : g = hg.id
    · subst hid
      simp at hcache
    · simp only [Function.update_of_ne hid] at hcache
      exact hknown.hostgroups g hcache

theorem known_service_group {sg : Group} (hknown : Known m) :
    Fits c m.db (m.statements hash (.service_group sg)) ∧
      Known (m.step c hash (.service_group sg)) := by
  simp only [Manager.step, statements, Caches.process, Caches.process_service_group]
  split
  · refine ⟨⟨trivial, trivial⟩, hknown.hostgroups, ?_⟩
    intro g hcache
    by_cases hid : g = sg.id
    · subst hid
      exact Groups.rows_insupdate_self _
    · simp only [Function.update_of_ne hid] at hcache
      exact Groups.rows_insupdate sg (hknown.servicegroups g hcache)
  · refine ⟨⟨trivial, trivial⟩, hknown.hostgroups, ?_⟩
    intro g hcache
    by_cases hid : g = sg.id
    · subst hid
      simp at hcache
    · simp only [Function.update_of_ne hid] at hcache
      exact hknown.servicegroups g hcache

/-- A group that is not in the cache is created in front of its member. -/
theorem known_host_group_member {hgm : GroupMember} (hknown : Known m) :
    Fits c m.db (m.statements hash (.host_group_member hgm)) ∧
      Known (m.step c hash (.host_group_member hgm)) := by
  simp only [Manager.step, statements, Caches.process, Caches.process_host_group_member]
  by_cases henabled : hgm.enabled = true
  · rw [if_pos henabled]
    by_cases hhost : m.caches.cache_host_instance hgm.host_id ≠ 0
    · rw [if_pos hhost]
      by_cases hcached : m.caches.hostgroup_cache hgm.group_id = true
      · rw [if_pos hcached]
        refine ⟨⟨hknown.hostgroups _ hcached, trivial⟩, ?_, hknown.servicegroups⟩
        intro g hcache
        show ((Groups.member_insert _ _ _).rows g).isSome = true
        rw [Groups.rows_member_insert]
        exact hknown.hostgroups g hcache
      · rw [if_neg hcached]
        refine ⟨⟨trivial, ?_, trivial⟩, ?_, hknown.servicegroups⟩
        · exact Groups.rows_insupdate_self
            ⟨true, hgm.group_id, hgm.group_name, m.caches.cache_host_instance hgm.host_id⟩
        · intro g hcache
          show ((Groups.member_insert _ (Groups.insupdate c _ _) _).rows g).isSome = true
          rw [Groups.rows_member_insert]
          exact Groups.rows_insupdate _ (hknown.hostgroups g hcache)
    · rw [if_neg hhost]
      exact ⟨trivial, hknown.hostgroups, hknown.servicegroups⟩
  · rw [if_neg henabled]
    refine ⟨⟨trivial, trivial⟩, ?_, hknown.servicegroups⟩
    intro g hcache
    show ((Groups.member_delete _ _).rows g).isSome = true
    rw [Groups.rows_member_delete]
    exact hknown.hostgroups g hcache

theorem known_service_group_member {sgm : ServiceGroupMember} (hknown : Known m) :
    Fits c m.db (m.statements hash (.service_group_member sgm)) ∧
      Known (m.step c hash (.service_group_member sgm)) := by
  simp only [Manager.step, statements, Caches.process, Caches.process_service_group_member]
  by_cases henabled : sgm.enabled = true
  · rw [if_pos henabled]
    by_cases hcached : m.caches.servicegroup_cache sgm.group_id = true
    · rw [if_pos hcached]
      refine ⟨⟨hknown.servicegroups _ hcached, trivial⟩, hknown.hostgroups, ?_⟩
      intro g hcache
      show ((Groups.member_insert _ _ _).rows g).isSome = true
      rw [Groups.rows_member_insert]
      exact hknown.servicegroups g hcache
    · rw [if_neg hcached]
      refine ⟨⟨trivial, ?_, trivial⟩, hknown.hostgroups, ?_⟩
      · exact Groups.rows_insupdate_self
          ⟨true, sgm.group_id, sgm.group_name, sgm.poller_id⟩
      · intro g hcache
        show ((Groups.member_insert _ (Groups.insupdate c _ _) _).rows g).isSome = true
        rw [Groups.rows_member_insert]
        exact Groups.rows_insupdate _ (hknown.servicegroups g hcache)
  · rw [if_neg henabled]
    refine ⟨⟨trivial, trivial⟩, hknown.hostgroups, ?_⟩
    intro g hcache
    show ((Groups.member_delete _ _).rows g).isSome = true
    rw [Groups.rows_member_delete]
    exact hknown.servicegroups g hcache

/-- **An event keeps the groups of the caches**, and its members find theirs. -/
theorem known_step {e : Event} (hknown : Known m) (hkeeps : Keeps m e) :
    Fits c m.db (m.statements hash e) ∧ Known (m.step c hash e) := by
  have hnothing : ∀ st ∈ ([] : List Statement), st.groups = false := by simp
  have hone : ∀ {st : Statement}, st.groups = false → ∀ st' ∈ [st], st'.groups = false := by
    intro st hst st' hmem
    rw [List.mem_singleton.mp hmem]
    exact hst
  cases e with
  | «instance» id => exact known_instance hknown hkeeps
  | host_group hg => exact known_host_group hknown
  | service_group sg => exact known_service_group hknown
  | host_group_member hgm => exact known_host_group_member hknown
  | service_group_member sgm => exact known_service_group_member hknown
  | host ht =>
    refine known_of_others hknown ?_ ?_ ?_ <;>
      simp only [Manager.step, statements, Caches.process, Caches.process_host] <;> split <;>
      first | rfl | exact hone rfl | exact hnothing
  | service sv =>
    refine known_of_others hknown ?_ ?_ ?_ <;>
      simp only [Manager.step, statements, Caches.process, Caches.process_service] <;> split <;>
      try split
    all_goals first | rfl | exact hone rfl | exact hnothing
  | host_check now hc =>
    refine known_of_others hknown ?_ ?_ ?_ <;>
      simp only [Manager.step, statements, Caches.process, Caches.process_host_check] <;>
      split <;> try split
    all_goals first | rfl | exact hone rfl | exact hnothing
  | service_check now sc =>
    refine known_of_others hknown ?_ ?_ ?_ <;>
      simp only [Manager.step, statements, Caches.process, Caches.process_service_check] <;>
      split <;> try split
    all_goals try split
    all_goals first | rfl | exact hone rfl | exact hnothing

end

/-- **Members find their groups** in a run in which no start of a poller empties a group of the
caches. -/
theorem groups_exist_of_keeps (c : Columns) (hash : String → ℕ) (db : Database) (events : List Event)
    (h : Always c hash Keeps events (.start db)) :
    Always c hash (GroupsExist c hash) events (.start db) := by
  refine always_of_invariant c hash (I := Known) ?_ ?_ ?_ h
  · exact ⟨fun g hcache => hcache, fun g hcache => hcache⟩
  · intro m e _ hknown hkeeps
    exact (known_step hknown hkeeps).2
  · intro m e _ hknown hkeeps
    exact ⟨(known_step hknown hkeeps).1, hknown⟩

def aGroup : Event := .host_group ⟨true, 5, "group", 1⟩

def aMember : Event := .host_group_member ⟨true, 5, "group", 7, 1⟩

/-- Another poller starts while the group has a member. -/
theorem groups_exist_of_keeps_other :
    Always wholeColumns String.length (GroupsExist wholeColumns String.length)
      [aHost, aGroup, aMember, .instance 2, aMember] (.start onePoller) := by
  refine groups_exist_of_keeps wholeColumns String.length onePoller _ ?_
  refine (always_cons _ _).mpr ⟨trivial, (always_cons _ _).mpr ⟨trivial,
    (always_cons _ _).mpr ⟨trivial, (always_cons _ _).mpr ⟨⟨?_, ?_⟩,
      (always_cons _ _).mpr ⟨trivial, always_nil _ _ _ _⟩⟩⟩⟩⟩
  · intro g hcache
    have hg : g = 5 := by
      by_contra hne
      have hupdate : Function.update (fun _ : ℕ => false) 5 true g = true := hcache
      rw [Function.update_of_ne hne] at hupdate
      cases hupdate
    subst hg
    exact ⟨(7, 5), by decide, rfl, by decide⟩
  · intro g hcache
    cases hcache

/-- The poller of an empty group starts, and the group gets a member. -/
theorem not_groups_exist : ¬ ∀ c hash db events,
    Always c hash (GroupsExist c hash) events (.start db) := by
  intro h
  have hlast := h wholeColumns String.length onePoller [aGroup, .instance 1, aHost, aMember]
    [aGroup, .instance 1, aHost] aMember [] rfl
  have hfits := hlast.1.1
  cases hfits

end CentreonBroker.Storage.SqlEvents
