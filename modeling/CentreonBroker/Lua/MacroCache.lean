import CentreonBroker.Lib.Decimal
import CentreonBroker.Lib.Keyed
import CentreonBroker.Lib.Runs
import CentreonBroker.PersistentSave

/-!
# The macro cache of the Lua connector

Each event of the configuration is kept under its key, and the event of an instance removes what
belonged to its hosts. When the connector ends the events that are kept are saved, and written
again when it is there again.
-/

namespace CentreonBroker.Lua.MacroCache

open Keyed

/-! ## The events -/

structure Instance where
  poller_id : ℕ
  name : String
  deriving DecidableEq

structure Host where
  host_id : ℕ
  poller_id : ℕ
  host_name : String
  notes : String
  notes_url : String
  action_url : String
  deriving DecidableEq

/-- `neb::group`, of hosts or of services. -/
structure Group where
  id : ℕ
  name : String
  enabled : Bool
  deriving DecidableEq

structure HostGroupMember where
  host_id : ℕ
  group_id : ℕ
  group_name : String
  enabled : Bool
  deriving DecidableEq

structure Service where
  host_id : ℕ
  service_id : ℕ
  service_description : String
  notes : String
  notes_url : String
  action_url : String
  deriving DecidableEq

structure ServiceGroupMember where
  host_id : ℕ
  service_id : ℕ
  group_id : ℕ
  group_name : String
  enabled : Bool
  deriving DecidableEq

structure CustomVariable where
  host_id : ℕ
  service_id : ℕ
  name : String
  value : String
  enabled : Bool
  deriving DecidableEq

structure IndexMapping where
  index_id : ℕ
  host_id : ℕ
  service_id : ℕ
  deriving DecidableEq

structure MetricMapping where
  metric_id : ℕ
  index_id : ℕ
  deriving DecidableEq

structure DimensionBaEvent where
  ba_id : ℕ
  ba_name : String
  ba_description : String
  deriving DecidableEq

structure DimensionBvEvent where
  bv_id : ℕ
  bv_name : String
  bv_description : String
  deriving DecidableEq

structure DimensionBaBvRelationEvent where
  ba_id : ℕ
  bv_id : ℕ
  deriving DecidableEq

inductive Event where
  | neb_instance (i : Instance)
  | host (h : Host)
  | host_group (hg : Group)
  | host_group_member (hgm : HostGroupMember)
  | service (s : Service)
  | service_group (sg : Group)
  | service_group_member (sgm : ServiceGroupMember)
  | custom_variable (cv : CustomVariable)
  | index_mapping (im : IndexMapping)
  | metric_mapping (mm : MetricMapping)
  | dimension_ba_event (dbae : DimensionBaEvent)
  | dimension_ba_bv_relation_event (rel : DimensionBaBvRelationEvent)
  | dimension_bv_event (dbve : DimensionBvEvent)
  | dimension_truncate_table_signal (update_started : Bool)
  | other (type : ℕ)
  deriving DecidableEq

/-- `std::atoi`. -/
def atoi (s : String) : ℤ := (Decimal.strtol s.toList).1.bmod (2 ^ 32)

def HostGroupMember.key (m : HostGroupMember) : ℕ × ℕ := (m.host_id, m.group_id)

def Service.key (s : Service) : ℕ × ℕ := (s.host_id, s.service_id)

def ServiceGroupMember.key (m : ServiceGroupMember) : ℕ × ℕ × ℕ :=
  (m.host_id, m.service_id, m.group_id)

def CustomVariable.key (cv : CustomVariable) : ℕ × ℕ := (cv.host_id, cv.service_id)

/-- What is a severity, of a host when there is no service. -/
structure CustomVariable.Severity (cv : CustomVariable) : Prop where
  name : cv.name = "CRITICALITY_LEVEL"
  value : atoi cv.value ≠ 0

/-! ## The cache -/

/-- The members of `macro_cache`. -/
structure Cache where
  instances : Keyed Instance.poller_id fun _ => True := .empty
  hosts : Keyed Host.host_id fun _ => True := .empty
  host_groups : Keyed Group.id fun hg => hg.enabled := .empty
  host_group_members : Keyed HostGroupMember.key fun hgm => hgm.enabled := .empty
  services : Keyed Service.key fun _ => True := .empty
  service_groups : Keyed Group.id fun sg => sg.enabled := .empty
  service_group_members : Keyed ServiceGroupMember.key fun sgm => sgm.enabled := .empty
  index_mappings : Keyed IndexMapping.index_id fun _ => True := .empty
  metric_mappings : Keyed MetricMapping.metric_id fun _ => True := .empty
  dimension_ba_events : Keyed DimensionBaEvent.ba_id fun _ => True := .empty
  /-- A multimap. -/
  dimension_ba_bv_relation_events : List DimensionBaBvRelationEvent := []
  dimension_bv_events : Keyed DimensionBvEvent.bv_id fun _ => True := .empty
  custom_vars : Keyed CustomVariable.key CustomVariable.Severity := .empty

namespace Cache

/-- `_process_instance`. The services that are removed are noted, but for nothing. -/
def process_instance (i : Instance) (c : Cache) : Cache :=
  let hosts_removed :=
    (c.hosts.values.filter fun h => h.poller_id = i.poller_id).map Host.host_id
  { c with
    hosts := c.hosts.filter fun h => h.poller_id ≠ i.poller_id
    host_group_members := c.host_group_members.filter fun hgm => hgm.key.1 ∉ hosts_removed
    services := c.services.filter fun s => s.host_id ∉ hosts_removed
    instances := c.instances.insert i trivial }

def process_host_group (hg : Group) (c : Cache) : Cache :=
  if h : hg.enabled then { c with host_groups := c.host_groups.insert hg h } else c

def process_host_group_member (hgm : HostGroupMember) (c : Cache) : Cache :=
  if h : hgm.enabled then
    { c with host_group_members := c.host_group_members.insert hgm h }
  else { c with host_group_members := c.host_group_members.erase hgm.key }

def process_service_group (sg : Group) (c : Cache) : Cache :=
  if h : sg.enabled then { c with service_groups := c.service_groups.insert sg h } else c

def process_service_group_member (sgm : ServiceGroupMember) (c : Cache) : Cache :=
  if h : sgm.enabled then
    { c with service_group_members := c.service_group_members.insert sgm h }
  else { c with service_group_members := c.service_group_members.erase sgm.key }

/-- `_process_dimension_truncate_table_signal`. -/
def process_truncate (update_started : Bool) (c : Cache) : Cache :=
  if update_started then
    { c with
      dimension_ba_events := .empty
      dimension_ba_bv_relation_events := []
      dimension_bv_events := .empty }
  else c

def process_custom_variable (cv : CustomVariable) (c : Cache) : Cache :=
  if hname : cv.name = "CRITICALITY_LEVEL" then
    if hvalue : atoi cv.value ≠ 0 then
      { c with custom_vars := c.custom_vars.insert cv ⟨hname, hvalue⟩ }
    else c
  else c

def write (c : Cache) : Event → Cache
  | .neb_instance i => c.process_instance i
  | .host h => { c with hosts := c.hosts.insert h trivial }
  | .host_group hg => c.process_host_group hg
  | .host_group_member hgm => c.process_host_group_member hgm
  | .service s => { c with services := c.services.insert s trivial }
  | .service_group sg => c.process_service_group sg
  | .service_group_member sgm => c.process_service_group_member sgm
  | .custom_variable cv => c.process_custom_variable cv
  | .index_mapping im => { c with index_mappings := c.index_mappings.insert im trivial }
  | .metric_mapping mm => { c with metric_mappings := c.metric_mappings.insert mm trivial }
  | .dimension_ba_event dbae =>
    { c with dimension_ba_events := c.dimension_ba_events.insert dbae trivial }
  | .dimension_ba_bv_relation_event rel =>
    { c with
      dimension_ba_bv_relation_events := c.dimension_ba_bv_relation_events ++ [rel] }
  | .dimension_bv_event dbve =>
    { c with dimension_bv_events := c.dimension_bv_events.insert dbve trivial }
  | .dimension_truncate_table_signal update_started => c.process_truncate update_started
  | .other _ => c

/-- What `_save_to_disk` adds. -/
def saved (c : Cache) : List Event :=
  c.instances.values.map .neb_instance ++
  c.hosts.values.map .host ++
  c.host_groups.values.map .host_group ++
  c.host_group_members.values.map .host_group_member ++
  c.services.values.map .service ++
  c.service_groups.values.map .service_group ++
  c.service_group_members.values.map .service_group_member ++
  c.index_mappings.values.map .index_mapping ++
  c.metric_mappings.values.map .metric_mapping ++
  c.dimension_ba_events.values.map .dimension_ba_event ++
  c.dimension_ba_bv_relation_events.map .dimension_ba_bv_relation_event ++
  c.dimension_bv_events.values.map .dimension_bv_event ++
  c.custom_vars.values.map .custom_variable

end Cache

/-! ## Its answers -/

/-- What the maps have under each key, and how many times a relation is held. -/
@[ext]
structure Maps where
  instances : ℕ → Option Instance
  hosts : ℕ → Option Host
  host_groups : ℕ → Option Group
  host_group_members : ℕ × ℕ → Option HostGroupMember
  services : ℕ × ℕ → Option Service
  service_groups : ℕ → Option Group
  service_group_members : ℕ × ℕ × ℕ → Option ServiceGroupMember
  index_mappings : ℕ → Option IndexMapping
  metric_mappings : ℕ → Option MetricMapping
  dimension_ba_events : ℕ → Option DimensionBaEvent
  dimension_ba_bv_relation_events : DimensionBaBvRelationEvent → ℕ
  dimension_bv_events : ℕ → Option DimensionBvEvent
  custom_vars : ℕ × ℕ → Option CustomVariable

def Cache.maps (c : Cache) : Maps where
  instances := c.instances.find
  hosts := c.hosts.find
  host_groups := c.host_groups.find
  host_group_members := c.host_group_members.find
  services := c.services.find
  service_groups := c.service_groups.find
  service_group_members := c.service_group_members.find
  index_mappings := c.index_mappings.find
  metric_mappings := c.metric_mappings.find
  dimension_ba_events := c.dimension_ba_events.find
  dimension_ba_bv_relation_events rel := c.dimension_ba_bv_relation_events.count rel
  dimension_bv_events := c.dimension_bv_events.find
  custom_vars := c.custom_vars.find

namespace Maps

variable (m : Maps)

/-- What was found, or the exception. -/
def found {α : Type} (message : String) : Option α → Except String α
  | some x => .ok x
  | none => .error message

def get_index_mapping (index_id : ℕ) : Except String IndexMapping :=
  found s!"lua: could not find host/service of index {index_id}" (m.index_mappings index_id)

def get_metric_mapping (metric_id : ℕ) : Except String MetricMapping :=
  found s!"lua: could not find index of metric {metric_id}" (m.metric_mappings metric_id)

def get_service (host_id service_id : ℕ) : Except String Service :=
  found s!"lua: could not find information on service ({host_id},{service_id})"
    (m.services (host_id, service_id))

def get_host (host_id : ℕ) : Except String Host :=
  found s!"lua: could not find information on host {host_id}" (m.hosts host_id)

def get_host_name (host_id : ℕ) : Except String String := Host.host_name <$> m.get_host host_id

/-- The severity of a service, or of a host with 0 for the service. -/
def get_severity (host_id service_id : ℕ) : Except String ℤ :=
  (fun cv => atoi cv.value) <$> found
    s!"lua: could not find the severity of the object (host_id: {host_id}, {service_id})"
    (m.custom_vars (host_id, service_id))

/-- A text of a host, or of a service when there is one. -/
def text (ofService : Service → String) (ofHost : Host → String) (service_message : String)
    (host_id service_id : ℕ) : Except String String :=
  if service_id ≠ 0 then ofService <$> found service_message (m.services (host_id, service_id))
  else ofHost <$> m.get_host host_id

def get_notes_url (host_id service_id : ℕ) : Except String String :=
  m.text Service.notes_url Host.notes_url
    s!"lua: could not find information on service ({host_id}, {service_id})" host_id service_id

def get_action_url (host_id service_id : ℕ) : Except String String :=
  m.text Service.action_url Host.action_url
    s!"lua: could not find information on service ({host_id}, {service_id})" host_id service_id

def get_notes (host_id service_id : ℕ) : Except String String :=
  m.text Service.notes Host.notes
    s!"lua: cound not find information on service ({host_id}, {service_id})" host_id service_id

def get_host_group_name (id : ℕ) : Except String String :=
  Group.name <$> found s!"lua: could not find information on host group {id}" (m.host_groups id)

def get_service_description (host_id service_id : ℕ) : Except String String :=
  Service.service_description <$>
    found s!"lua: could not find information on service ({host_id}, {service_id})"
      (m.services (host_id, service_id))

def get_service_group_name (id : ℕ) : Except String String :=
  Group.name <$>
    found s!"lua: could not find information on service group {id}" (m.service_groups id)

def get_instance (instance_id : ℕ) : Except String String :=
  Instance.name <$>
    found s!"lua: could not find information on instance {instance_id}" (m.instances instance_id)

def get_dimension_ba_event (ba_id : ℕ) : Except String DimensionBaEvent :=
  found s!"lua: could not find information on dimension ba event {ba_id}"
    (m.dimension_ba_events ba_id)

def get_dimension_bv_event (bv_id : ℕ) : Except String DimensionBvEvent :=
  found s!"lua: could not find information on dimension bv event {bv_id}"
    (m.dimension_bv_events bv_id)

end Maps

/-! ## What the cache is for -/

namespace Maps

/-- The host belongs to the poller. -/
def belongs (m : Maps) (poller_id host_id : ℕ) : Bool :=
  (m.hosts host_id).any fun h => h.poller_id = poller_id

/-- The current configuration, after an event. -/
def write (m : Maps) : Event → Maps
  | .neb_instance i =>
    let gone := m.belongs i.poller_id
    { m with
      instances := Function.update m.instances i.poller_id (some i)
      hosts := fun id => if gone id then none else m.hosts id
      host_group_members := fun k => if gone k.1 then none else m.host_group_members k
      services := fun k => if gone k.1 then none else m.services k
      service_group_members := fun k => if gone k.1 then none else m.service_group_members k
      custom_vars := fun k => if gone k.1 then none else m.custom_vars k }
  | .host h => { m with hosts := Function.update m.hosts h.host_id (some h) }
  | .host_group hg =>
    { m with
      host_groups := Function.update m.host_groups hg.id (if hg.enabled then some hg else none) }
  | .host_group_member hgm =>
    { m with
      host_group_members :=
        Function.update m.host_group_members hgm.key (if hgm.enabled then some hgm else none) }
  | .service s => { m with services := Function.update m.services s.key (some s) }
  | .service_group sg =>
    { m with
      service_groups :=
        Function.update m.service_groups sg.id (if sg.enabled then some sg else none) }
  | .service_group_member sgm =>
    { m with
      service_group_members :=
        Function.update m.service_group_members sgm.key (if sgm.enabled then some sgm else none) }
  | .custom_variable cv =>
    if cv.name = "CRITICALITY_LEVEL" then
      { m with
        custom_vars :=
          Function.update m.custom_vars cv.key
            (if cv.enabled ∧ atoi cv.value ≠ 0 then some cv else none) }
    else m
  | .index_mapping im =>
    { m with index_mappings := Function.update m.index_mappings im.index_id (some im) }
  | .metric_mapping mm =>
    { m with metric_mappings := Function.update m.metric_mappings mm.metric_id (some mm) }
  | .dimension_ba_event dbae =>
    { m with dimension_ba_events := Function.update m.dimension_ba_events dbae.ba_id (some dbae) }
  | .dimension_ba_bv_relation_event rel =>
    { m with
      dimension_ba_bv_relation_events := Function.update m.dimension_ba_bv_relation_events rel 1 }
  | .dimension_bv_event dbve =>
    { m with dimension_bv_events := Function.update m.dimension_bv_events dbve.bv_id (some dbve) }
  | .dimension_truncate_table_signal update_started =>
    if update_started then
      { m with
        dimension_ba_events := fun _ => none
        dimension_ba_bv_relation_events := fun _ => 0
        dimension_bv_events := fun _ => none }
    else m
  | .other _ => m

end Maps

/-- The cache, and the current configuration. -/
def step (s : Cache × Maps) (e : Event) : Cache × Maps := (s.1.write e, s.2.write e)

def start : Cache × Maps := ({}, Cache.maps {})

/-- The connector ends and is there again: the constructor reads what was saved. -/
def Cache.reopened [PersistentCache.EventCodec Event] (turns : ℕ) (fs : Files PersistentCache.Name)
    (c : Cache) : Option Cache :=
  PersistentCache.readAll Cache.write turns
    (PersistentCache.run (PersistentCache.savingAndOpening c.saved) ⟨fs, none⟩).2 {}

/-- The cache answers as the configuration is, and is the same when it is saved and loaded: where the
files are fresh (what an interrupted save left in the `.new` file would come first), and BBDO gives
events back as they were. That leaves out numbers such as `latency`, printed with six decimals. -/
structure Mirrors (s : Cache × Maps) : Prop where
  answers : s.1.maps = s.2
  restored : ∀ [PersistentCache.EventCodec Event] (fs : Files PersistentCache.Name),
    PersistentCache.Fresh fs → ∃ turns, s.1.reopened turns fs = some s.1

/-- The event does not ask for what the cache leaves out. -/
def Fits (c : Cache) : Event → Prop
  | .neb_instance i =>
    ∀ h ∈ c.hosts.values, h.poller_id = i.poller_id →
      (∀ sgm ∈ c.service_group_members.values, sgm.host_id ≠ h.host_id) ∧
        ∀ cv ∈ c.custom_vars.values, cv.host_id ≠ h.host_id
  | .host_group hg => hg.enabled ∨ c.host_groups.find hg.id = none
  | .service_group sg => sg.enabled ∨ c.service_groups.find sg.id = none
  | .custom_variable cv =>
    cv.name = "CRITICALITY_LEVEL" →
      if atoi cv.value ≠ 0 then cv.enabled else c.custom_vars.find cv.key = none
  | .dimension_ba_bv_relation_event rel => rel ∉ c.dimension_ba_bv_relation_events
  | _ => True

/-! ## Saved and loaded -/

namespace Cache

/-- What some events make of a cache. -/
def Loads (c : Cache) (events : List Event) (c' : Cache) : Prop := events.foldl write c = c'

theorem Loads.append {c c' c'' : Cache} {events events' : List Event} (h : Loads c events c')
    (h' : Loads c' events' c'') : Loads c (events ++ events') c'' := by
  rw [Loads, List.foldl_append, h]
  exact h'

/-- The events of one map make it, where each event puts in its value. -/
theorem loads_values {K V : Type} [DecidableEq K] {key : V → K} {P : V → Prop}
    (put : Keyed key P → Cache) (event : V → Event)
    (h : ∀ t v (hv : P v), (put t).write (event v) = put (t.insert v hv)) (t : Keyed key P) :
    Loads (put .empty) (t.values.map event) (put t) := by
  rw [Loads, List.foldl_map]
  exact foldl_values put (fun c v => c.write (event v)) h t

theorem loads_relations (put : List DimensionBaBvRelationEvent → Cache)
    (h : ∀ rels rel, (put rels).write (.dimension_ba_bv_relation_event rel) = put (rels ++ [rel]))
    (rels : List DimensionBaBvRelationEvent) :
    Loads (put []) (rels.map .dimension_ba_bv_relation_event) (put rels) := by
  induction rels using List.reverseRecOn with
  | nil => rfl
  | append_singleton rels rel ih =>
    rw [List.map_append]
    exact ih.append (h rels rel)

/-- **Writing what was saved gives the cache again.** -/
theorem loads_saved (c : Cache) : Loads {} c.saved c := by
  -- the caches on the way, with one map more each
  let c0 : Cache := {}
  let c1 : Cache := { c0 with instances := c.instances }
  let c2 : Cache := { c1 with hosts := c.hosts }
  let c3 : Cache := { c2 with host_groups := c.host_groups }
  let c4 : Cache := { c3 with host_group_members := c.host_group_members }
  let c5 : Cache := { c4 with services := c.services }
  let c6 : Cache := { c5 with service_groups := c.service_groups }
  let c7 : Cache := { c6 with service_group_members := c.service_group_members }
  let c8 : Cache := { c7 with index_mappings := c.index_mappings }
  let c9 : Cache := { c8 with metric_mappings := c.metric_mappings }
  let c10 : Cache := { c9 with dimension_ba_events := c.dimension_ba_events }
  let c11 : Cache :=
    { c10 with dimension_ba_bv_relation_events := c.dimension_ba_bv_relation_events }
  let c12 : Cache := { c11 with dimension_bv_events := c.dimension_bv_events }
  let c13 : Cache := { c12 with custom_vars := c.custom_vars }
  have h1 : Loads c0 _ c1 := loads_values (fun t => { c0 with instances := t })
    .neb_instance (fun _ _ _ => rfl) c.instances
  have h2 : Loads c1 _ c2 := loads_values (fun t => { c1 with hosts := t })
    .host (fun _ _ _ => rfl) c.hosts
  have h3 : Loads c2 _ c3 := loads_values (fun t => { c2 with host_groups := t })
    .host_group (fun _ _ hv => dif_pos hv) c.host_groups
  have h4 : Loads c3 _ c4 := loads_values (fun t => { c3 with host_group_members := t })
    .host_group_member (fun _ _ hv => dif_pos hv) c.host_group_members
  have h5 : Loads c4 _ c5 := loads_values (fun t => { c4 with services := t })
    .service (fun _ _ _ => rfl) c.services
  have h6 : Loads c5 _ c6 := loads_values (fun t => { c5 with service_groups := t })
    .service_group (fun _ _ hv => dif_pos hv) c.service_groups
  have h7 : Loads c6 _ c7 := loads_values (fun t => { c6 with service_group_members := t })
    .service_group_member (fun _ _ hv => dif_pos hv) c.service_group_members
  have h8 : Loads c7 _ c8 := loads_values (fun t => { c7 with index_mappings := t })
    .index_mapping (fun _ _ _ => rfl) c.index_mappings
  have h9 : Loads c8 _ c9 := loads_values (fun t => { c8 with metric_mappings := t })
    .metric_mapping (fun _ _ _ => rfl) c.metric_mappings
  have h10 : Loads c9 _ c10 := loads_values (fun t => { c9 with dimension_ba_events := t })
    .dimension_ba_event (fun _ _ _ => rfl) c.dimension_ba_events
  have h11 : Loads c10 _ c11 :=
    loads_relations (fun t => { c10 with dimension_ba_bv_relation_events := t })
      (fun _ _ => rfl) c.dimension_ba_bv_relation_events
  have h12 : Loads c11 _ c12 := loads_values (fun t => { c11 with dimension_bv_events := t })
    .dimension_bv_event (fun _ _ _ => rfl) c.dimension_bv_events
  have h13 : Loads c12 _ c13 := loads_values (fun t => { c12 with custom_vars := t })
    .custom_variable (fun _ _ hv => (dif_pos hv.name).trans (dif_pos hv.value)) c.custom_vars
  exact h1.append h2 |>.append h3 |>.append h4 |>.append h5 |>.append h6 |>.append h7
    |>.append h8 |>.append h9 |>.append h10 |>.append h11 |>.append h12 |>.append h13

end Cache

/-! ## The answers after an event -/

namespace Cache

variable {c : Cache}

theorem belongs_iff {poller_id host_id : ℕ} : c.maps.belongs poller_id host_id ↔
    ∃ h ∈ c.hosts.values, h.poller_id = poller_id ∧ h.host_id = host_id := by
  rw [Maps.belongs, Option.any_eq_true]
  constructor
  · rintro ⟨h, hfind, hpoller⟩
    obtain ⟨hmem, hid⟩ := find_eq_some_iff.mp hfind
    exact ⟨h, hmem, of_decide_eq_true hpoller, hid⟩
  · rintro ⟨h, hmem, hpoller, hid⟩
    exact ⟨h, find_eq_some_iff.mpr ⟨hmem, hid⟩, decide_eq_true hpoller⟩

/-- The hosts that are removed are those of the poller. -/
theorem not_mem_hosts_removed (c : Cache) (i : Instance) (host_id : ℕ) :
    decide (host_id ∉ (c.hosts.values.filter fun h => h.poller_id = i.poller_id).map Host.host_id) =
      !c.maps.belongs i.poller_id host_id := by
  rw [Bool.eq_iff_iff, decide_eq_true_eq, Bool.not_eq_true', ← Bool.not_eq_true, belongs_iff,
    List.mem_map]
  refine not_congr (exists_congr fun h => ?_)
  rw [List.mem_filter, decide_eq_true_eq, and_assoc]

/-- What is under the keys of other hosts stays. -/
theorem find_of_hosts {K V : Type} [DecidableEq K] {key : V → K} {P : V → Prop} (c : Cache)
    (i : Instance) (host_id : K → ℕ) (t : Keyed key P) :
    (t.filter fun v => host_id (key v) ∉
      (c.hosts.values.filter fun h => h.poller_id = i.poller_id).map Host.host_id).find =
        fun k => if c.maps.belongs i.poller_id (host_id k) then none else t.find k := by
  funext k
  rw [find_filter_key (fun k => decide (host_id k ∉ _)) t k, not_mem_hosts_removed]
  cases c.maps.belongs i.poller_id (host_id k) <;> rfl

theorem find_hosts (c : Cache) (i : Instance) :
    (c.hosts.filter fun h => h.poller_id ≠ i.poller_id).find =
      fun id => if c.maps.belongs i.poller_id id then none else c.hosts.find id := by
  funext id
  rw [find_filter, Maps.belongs]
  show _ = if (c.hosts.find id).any _ then none else c.hosts.find id
  cases c.hosts.find id with
  | none => rfl
  | some h =>
    by_cases hpoller : h.poller_id = i.poller_id
    · simp [hpoller]
    · simp [hpoller]

/-- A map has nothing of the hosts of a poller. -/
theorem forgets_iff {K V : Type} [DecidableEq K] {key : V → K} {P : V → Prop} (c : Cache)
    (i : Instance) (host_id : K → ℕ) (t : Keyed key P) :
    (t.find = fun k => if c.maps.belongs i.poller_id (host_id k) then none else t.find k) ↔
      ∀ h ∈ c.hosts.values, h.poller_id = i.poller_id →
        ∀ v ∈ t.values, host_id (key v) ≠ h.host_id := by
  rw [find_eq_forget_iff (p := fun k => c.maps.belongs i.poller_id (host_id k))]
  constructor
  · intro hnone h hmem hpoller v hv hid
    have hbelongs := belongs_iff.mpr ⟨h, hmem, hpoller, hid.symm⟩
    rw [hnone v hv] at hbelongs
    cases hbelongs
  · intro hnone v hv
    rw [← Bool.not_eq_true, belongs_iff]
    rintro ⟨h, hmem, hpoller, hid⟩
    exact hnone h hmem hpoller v hv hid.symm

/-- **What an instance event leaves** is the service group members and the severities. -/
theorem process_instance_iff (c : Cache) (i : Instance) :
    (c.write (.neb_instance i)).maps = c.maps.write (.neb_instance i) ↔
      Fits c (.neb_instance i) := by
  have hmaps : (c.write (.neb_instance i)).maps =
      { c.maps.write (.neb_instance i) with
        service_group_members := c.service_group_members.find
        custom_vars := c.custom_vars.find } := by
    rw [Maps.ext_iff]
    exact ⟨find_insert i trivial c.instances, find_hosts c i, rfl,
      find_of_hosts c i Prod.fst c.host_group_members, find_of_hosts c i Prod.fst c.services,
      rfl, rfl, rfl, rfl, rfl, rfl, rfl, rfl⟩
  have hleft : (c.write (.neb_instance i)).maps = c.maps.write (.neb_instance i) ↔
      (c.service_group_members.find = fun k =>
        if c.maps.belongs i.poller_id k.1 then none else c.service_group_members.find k) ∧
      (c.custom_vars.find = fun k =>
        if c.maps.belongs i.poller_id k.1 then none else c.custom_vars.find k) := by
    rw [hmaps, Maps.ext_iff]
    simp only [true_and]
    rfl
  rw [hleft, forgets_iff c i Prod.fst, forgets_iff c i Prod.fst]
  constructor
  · rintro ⟨hmembers, hvars⟩ h hmem hpoller
    exact ⟨hmembers h hmem hpoller, hvars h hmem hpoller⟩
  · intro hfits
    exact ⟨fun h hmem hpoller => (hfits h hmem hpoller).1,
      fun h hmem hpoller => (hfits h hmem hpoller).2⟩

/-- A group that is disabled is not removed. -/
theorem process_host_group_iff (c : Cache) (hg : Group) :
    (c.write (.host_group hg)).maps = c.maps.write (.host_group hg) ↔ Fits c (.host_group hg) := by
  have hfits : Fits c (.host_group hg) ↔ hg.enabled ∨ c.host_groups.find hg.id = none := Iff.rfl
  rw [hfits, write, process_host_group, Maps.write]
  by_cases henabled : hg.enabled
  · rw [dif_pos henabled, if_pos henabled, maps, maps, find_insert]
    exact iff_of_true rfl (.inl henabled)
  · rw [dif_neg henabled, if_neg henabled, maps, Maps.mk.injEq]
    simp [henabled]

theorem process_service_group_iff (c : Cache) (sg : Group) :
    (c.write (.service_group sg)).maps = c.maps.write (.service_group sg) ↔
      Fits c (.service_group sg) := by
  have hfits : Fits c (.service_group sg) ↔
    sg.enabled ∨ c.service_groups.find sg.id = none := Iff.rfl
  rw [hfits, write, process_service_group, Maps.write]
  by_cases henabled : sg.enabled
  · rw [dif_pos henabled, if_pos henabled, maps, maps, find_insert]
    exact iff_of_true rfl (.inl henabled)
  · rw [dif_neg henabled, if_neg henabled, maps, Maps.mk.injEq]
    simp [henabled]

/-- A severity that is disabled is kept, and one that is set to zero is not removed. -/
theorem process_custom_variable_iff (c : Cache) (cv : CustomVariable) :
    (c.write (.custom_variable cv)).maps = c.maps.write (.custom_variable cv) ↔
      Fits c (.custom_variable cv) := by
  have hfits : Fits c (.custom_variable cv) ↔ (cv.name = "CRITICALITY_LEVEL" →
    if atoi cv.value ≠ 0 then cv.enabled else c.custom_vars.find cv.key = none) := Iff.rfl
  rw [hfits, write, process_custom_variable, Maps.write]
  by_cases hname : cv.name = "CRITICALITY_LEVEL"
  · rw [dif_pos hname, if_pos hname, forall_prop_of_true hname]
    by_cases hvalue : atoi cv.value ≠ 0
    · rw [dif_pos hvalue, if_pos hvalue, maps, find_insert]
      constructor
      · intro h
        have hkey := congrFun (congrArg Maps.custom_vars h) cv.key
        simp only [Function.update_self] at hkey
        by_contra henabled
        rw [if_neg fun hboth => henabled hboth.1] at hkey
        cases hkey
      · intro henabled
        rw [if_pos ⟨henabled, hvalue⟩]
        rfl
    · rw [dif_neg hvalue, if_neg hvalue, maps, Maps.mk.injEq]
      simp [hvalue]
  · rw [dif_neg hname, if_neg hname]
    exact iff_of_true rfl fun h => absurd h hname

/-- A relation that is held is held once more. -/
theorem process_relation_iff (c : Cache) (rel : DimensionBaBvRelationEvent) :
    (c.write (.dimension_ba_bv_relation_event rel)).maps =
        c.maps.write (.dimension_ba_bv_relation_event rel) ↔
      Fits c (.dimension_ba_bv_relation_event rel) := by
  have hfits : Fits c (.dimension_ba_bv_relation_event rel) ↔
    rel ∉ c.dimension_ba_bv_relation_events := Iff.rfl
  rw [hfits, write, Maps.write, maps, maps, Maps.mk.injEq]
  simp only [true_and, and_true]
  rw [funext_iff, ← List.count_eq_zero]
  constructor
  · intro h
    have hself := h rel
    rw [Function.update_self, List.count_append, List.count_singleton_self] at hself
    omega
  · intro h rel'
    rw [List.count_append]
    by_cases heq : rel' = rel
    · rw [heq, Function.update_self, List.count_singleton_self, h]
    · rw [Function.update_of_ne heq, List.count_singleton, if_neg (by simpa using Ne.symm heq),
        Nat.add_zero]

/-- **When the cache answers as the configuration is, after an event.** -/
theorem write_iff (c : Cache) (e : Event) : (c.write e).maps = c.maps.write e ↔ Fits c e := by
  cases e with
  | neb_instance i => exact process_instance_iff c i
  | host_group hg => exact process_host_group_iff c hg
  | service_group sg => exact process_service_group_iff c sg
  | custom_variable cv => exact process_custom_variable_iff c cv
  | dimension_ba_bv_relation_event rel => exact process_relation_iff c rel
  | host h =>
    refine iff_of_true ?_ trivial
    exact congrArg (fun f => { c.maps with hosts := f }) (find_insert h trivial c.hosts)
  | service s =>
    refine iff_of_true ?_ trivial
    exact congrArg (fun f => { c.maps with services := f }) (find_insert s trivial c.services)
  | index_mapping im =>
    refine iff_of_true ?_ trivial
    exact congrArg (fun f => { c.maps with index_mappings := f })
      (find_insert im trivial c.index_mappings)
  | metric_mapping mm =>
    refine iff_of_true ?_ trivial
    exact congrArg (fun f => { c.maps with metric_mappings := f })
      (find_insert mm trivial c.metric_mappings)
  | dimension_ba_event dbae =>
    refine iff_of_true ?_ trivial
    exact congrArg (fun f => { c.maps with dimension_ba_events := f })
      (find_insert dbae trivial c.dimension_ba_events)
  | dimension_bv_event dbve =>
    refine iff_of_true ?_ trivial
    exact congrArg (fun f => { c.maps with dimension_bv_events := f })
      (find_insert dbve trivial c.dimension_bv_events)
  | host_group_member hgm =>
    refine iff_of_true ?_ trivial
    rw [write, process_host_group_member, Maps.write]
    by_cases henabled : hgm.enabled
    · rw [dif_pos henabled, if_pos henabled, maps, maps, find_insert]
    · rw [dif_neg henabled, if_neg henabled, maps, maps, find_erase]
  | service_group_member sgm =>
    refine iff_of_true ?_ trivial
    rw [write, process_service_group_member, Maps.write]
    by_cases henabled : sgm.enabled
    · rw [dif_pos henabled, if_pos henabled, maps, maps, find_insert]
    · rw [dif_neg henabled, if_neg henabled, maps, maps, find_erase]
  | dimension_truncate_table_signal update_started =>
    refine iff_of_true ?_ trivial
    cases update_started <;> rfl
  | other type => exact iff_of_true rfl trivial

/-- The connector that is there again has the cache that was saved. -/
theorem restored (c : Cache) [PersistentCache.EventCodec Event] (fs : Files PersistentCache.Name)
    (hfresh : PersistentCache.Fresh fs) : ∃ turns, c.reopened turns fs = some c := by
  refine ⟨c.saved.length + 1, ?_⟩
  have hread : c.reopened (c.saved.length + 1) fs = some (c.saved.foldl write {}) :=
    PersistentCache.readAll_eq write (PersistentCache.run_savingAndOpening hfresh c.saved) rfl {}
  rw [hread]
  exact congrArg some c.loads_saved

end Cache

/-! ## Every run -/

/-- **The cache mirrors the configuration throughout when nothing is asked that it leaves out.** -/
theorem mirrors_iff_fits (events : List Event) : Throughout step Mirrors start events ↔
    EachStep step (fun s e => Fits s.1 e) start events := by
  refine throughout_iff_eachStep ?_ ⟨rfl, fun fs => Cache.restored {} fs⟩ events
  rintro ⟨c, m⟩ e ⟨hmaps, -⟩
  obtain rfl : c.maps = m := hmaps
  constructor
  · rintro ⟨hanswers, -⟩
    exact (c.write_iff e).mp hanswers
  · intro hfits
    exact ⟨(c.write_iff e).mpr hfits, fun fs => Cache.restored _ fs⟩

/-- A poller starts again, and a service of its host was in a group. -/
def restarted : List Event :=
  [.neb_instance ⟨1, "Central"⟩, .host ⟨1, 1, "srv", "", "", ""⟩,
    .service ⟨1, 1, "ping", "", "", ""⟩, .service_group_member ⟨1, 1, 5, "network", true⟩,
    .neb_instance ⟨1, "Central"⟩]

/-- **The service is gone, but not from its group.** -/
theorem not_mirrors : ¬ ∀ events, Throughout step Mirrors start events := by
  intro h
  have hlast : Mirrors (restarted.foldl step start) := (h restarted).last
  have hmember := congrFun (congrArg Maps.service_group_members hlast.answers) (1, 1, 5)
  exact absurd hmember (by decide)

end CentreonBroker.Lua.MacroCache
