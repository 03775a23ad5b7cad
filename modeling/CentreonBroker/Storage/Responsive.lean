import CentreonBroker.Lib.Entries

/-!
# Responsive instances

The conflict manager stamps each poller with the time of its last event. A check after each turn of
the main loop marks the pollers that were silent for too long as unresponsive, saves the real
states of their hosts and services, and publishes it. The next event of such a poller restores
them. `_oldest_timestamp` saves the check the scan of all stamps.

* `Tracked.oldest` — the cached minimum is at most the stamp of every responsive poller.
* `Tracked.heard` — the stamp of a responsive poller is the time of one of its events.
* `Follows` — what was written for a poller alternates, and ends with the state it is in.
* `Whole` — the queries of a change and its event go together.
-/

namespace CentreonBroker.Storage.Responsive

/-- `time_t`. -/
structure Time where
  sec : ℤ
  min_le : -2 ^ 63 ≤ sec
  le_max : sec ≤ 2 ^ 63 - 1

/-- `std::numeric_limits<time_t>::max()`. -/
def Time.max : Time := ⟨2 ^ 63 - 1, by omega, by omega⟩

def difftime (t₁ t₀ : Time) : ℤ := t₁.sec - t₀.sec

inductive StateType where
  | responsive
  | unresponsive
  deriving DecidableEq

structure StoredTimestamp where
  instance_id : ℕ
  ts : Time
  state : StateType

namespace StoredTimestamp

def timestamp_outdated (t : StoredTimestamp) (timeout : ℕ) (now : Time) : Bool :=
  timeout < difftime now t.ts

/-- The condition of the first loop of the check. -/
def expires (t : StoredTimestamp) (timeout : ℕ) (now : Time) : Bool :=
  t.state = .responsive && t.timestamp_outdated timeout now

def set_state (t : StoredTimestamp) (state : StateType) : StoredTimestamp := { t with state := state }

/-- What the first loop makes of a timestamp. -/
def checked (timeout : ℕ) (now : Time) (t : StoredTimestamp) : StoredTimestamp :=
  if t.expires timeout now then t.set_state .unresponsive else t

@[simp] theorem checked_instance_id (timeout : ℕ) (now : Time) (t : StoredTimestamp) :
    (t.checked timeout now).instance_id = t.instance_id := by
  unfold checked
  split <;> rfl

theorem checked_of_expires {timeout : ℕ} {now : Time} {t : StoredTimestamp}
    (h : t.expires timeout now = true) : t.checked timeout now = t.set_state .unresponsive :=
  if_pos h

/-- One that is responsive afterwards was, and is as it was. -/
theorem of_checked {timeout : ℕ} {now : Time} {t : StoredTimestamp}
    (h : (t.checked timeout now).state = .responsive) :
    t.checked timeout now = t ∧ t.state = .responsive ∧ difftime now t.ts ≤ timeout := by
  unfold checked at h ⊢
  split at h
  · cases h
  · rename_i hexpires
    have hlive : t.timestamp_outdated timeout now ≠ true := by
      intro hout
      exact hexpires (by simp [expires, h, hout])
    refine ⟨if_neg hexpires, h, ?_⟩
    simpa [timestamp_outdated] using hlive

end StoredTimestamp

/-- What the manager writes about an instance. -/
inductive Output where
  /-- `UPDATE instances SET outdated`. -/
  | outdated (instance_id : ℕ) (value : Bool)
  /-- `SET h.real_state=h.state,s.real_state=s.state`, and the states become unknown. -/
  | save_states (instance_id : ℕ)
  /-- `SET h.state=h.real_state,s.state=s.real_state`. -/
  | restore_states (instance_id : ℕ)
  /-- The event for the other streams. -/
  | responsive_instance (poller_id : ℕ) (responsive : Bool)

/-- `_stored_timestamps`: a timestamp has the id that it is stored under. -/
structure Timestamps where
  map : AList (fun _ : ℕ => StoredTimestamp)
  get_id : ∀ e ∈ map.entries, e.2.instance_id = e.1

structure Instances where
  stored_timestamps : Timestamps
  oldest_timestamp : Time
  /-- `_cache_deleted_instance_id`. -/
  deleted : List ℕ
  /-- All that was written. -/
  out : List Output

/-! ## The stored timestamps -/

namespace Timestamps

def empty : Timestamps := ⟨∅, by intro e he; cases he⟩

def find (s : Timestamps) (id : ℕ) : Option StoredTimestamp := s.map.lookup id

/-- `_stored_timestamps[id] = stored_timestamp(id, state)`, with the time it has then. -/
def put (s : Timestamps) (id : ℕ) (ts : Time) (state : StateType) : Timestamps where
  map := s.map.insert id ⟨id, ts, state⟩
  get_id := by
    intro e he
    rw [AList.entries_insert] at he
    rcases List.mem_cons.mp he with rfl | he
    · rfl
    · exact s.get_id e (Entries.mem_erase_entries (s := s.map) he).1

/-- The stamps after the first loop of the check, that reads the clock at each of them. -/
def scan (s : Timestamps) (timeout : ℕ) (clock : ℕ → Time) : Timestamps where
  map := ⟨s.map.entries.map (Sigma.map id fun id => StoredTimestamp.checked timeout (clock id)),
    s.map.nodupKeys.map₂ _ _⟩
  get_id := by
    intro e he
    obtain ⟨e₀, he₀, rfl⟩ := List.mem_map.mp he
    exact (StoredTimestamp.checked_instance_id timeout _ _).trans (s.get_id e₀ he₀)

/-- A round of the second loop of the check. -/
def older (oldest : Time) (e : Σ _ : ℕ, StoredTimestamp) : Time :=
  if e.2.state = .responsive ∧ e.2.ts.sec < oldest.sec then e.2.ts else oldest

/-- The second loop of the check. -/
def oldest (s : Timestamps) : Time := s.map.entries.foldl older Time.max

@[simp] theorem find_empty (id : ℕ) : empty.find id = none := rfl

@[simp] theorem find_put_self (s : Timestamps) (id : ℕ) (ts : Time) (state : StateType) :
    (s.put id ts state).find id = some ⟨id, ts, state⟩ := AList.lookup_insert s.map

theorem find_put_ne (s : Timestamps) {id id' : ℕ} (ts : Time) (state : StateType) (h : id' ≠ id) :
    (s.put id ts state).find id' = s.find id' := AList.lookup_insert_ne h

theorem find_scan (s : Timestamps) (timeout : ℕ) (clock : ℕ → Time) (id : ℕ) :
    (s.scan timeout clock).find id = (s.find id).map (StoredTimestamp.checked timeout (clock id)) :=
  List.dlookup_map₂ (l := s.map.entries) (f := fun id => StoredTimestamp.checked timeout (clock id))
    id

theorem older_le (oldest : Time) (e : Σ _ : ℕ, StoredTimestamp) :
    (older oldest e).sec ≤ oldest.sec := by
  unfold older
  split
  · omega
  · exact le_refl _

theorem foldl_older_le (l : List (Σ _ : ℕ, StoredTimestamp)) (oldest : Time) :
    (l.foldl older oldest).sec ≤ oldest.sec := by
  induction l generalizing oldest with
  | nil => exact le_refl _
  | cons e l ih => exact (ih _).trans (older_le oldest e)

theorem foldl_older_le_of_mem {l : List (Σ _ : ℕ, StoredTimestamp)} {e : Σ _ : ℕ, StoredTimestamp}
    (he : e ∈ l) (hstate : e.2.state = .responsive) (oldest : Time) :
    (l.foldl older oldest).sec ≤ e.2.ts.sec := by
  induction l generalizing oldest with
  | nil => cases he
  | cons e' l ih =>
    rcases List.mem_cons.mp he with rfl | he
    · refine (foldl_older_le l _).trans ?_
      unfold older
      split
      · exact le_refl _
      · rename_i h
        rw [not_and] at h
        have := h hstate
        omega
    · exact ih he _

theorem oldest_le {s : Timestamps} {id : ℕ} {t : StoredTimestamp} (h : s.find id = some t)
    (hstate : t.state = .responsive) : s.oldest.sec ≤ t.ts.sec :=
  foldl_older_le_of_mem (e := ⟨id, t⟩) (AList.mem_lookup_iff.mp h) hstate _

end Timestamps

/-! ## The functions of the manager -/

/-- `_update_hosts_and_services_of_instance`. -/
def updateInstance (id : ℕ) (responsive : Bool) : List Output :=
  [.outdated id !responsive, if responsive then .restore_states id else .save_states id,
    .responsive_instance id responsive]

namespace Instances

/-- The instances that the database has as outdated, from `_load_caches`. -/
def load (outdated deleted : List ℕ) : Instances where
  stored_timestamps := outdated.foldl (fun s id => s.put id Time.max .unresponsive) .empty
  oldest_timestamp := Time.max
  deleted := deleted
  out := []

/-- `_update_timestamp`. -/
def update_timestamp (s : Instances) (id : ℕ) (now : Time) : Instances where
  stored_timestamps := s.stored_timestamps.put id now .responsive
  oldest_timestamp := if now.sec < s.oldest_timestamp.sec then now else s.oldest_timestamp
  deleted := s.deleted
  out := s.out ++ if (s.stored_timestamps.find id).any (·.state = .unresponsive) then
    updateInstance id true else []

/-- `_is_valid_poller`. -/
def is_valid_poller (s : Instances) (id : ℕ) (now : Time) : Bool × Instances :=
  if s.deleted.contains id then (false, s) else (true, s.update_timestamp id now)

/-- What the first loop of the check writes. -/
def outdatedOutput (timeout : ℕ) (clock : ℕ → Time) (e : Σ _ : ℕ, StoredTimestamp) : List Output :=
  if e.2.expires timeout (clock e.1) then updateInstance e.2.instance_id false else []

/-- The two loops of the check. -/
def scanned (timeout : ℕ) (s : Instances) (clock : ℕ → Time) : Instances where
  stored_timestamps := s.stored_timestamps.scan timeout clock
  oldest_timestamp := (s.stored_timestamps.scan timeout clock).oldest
  deleted := s.deleted
  out := s.out ++ s.stored_timestamps.map.entries.flatMap (outdatedOutput timeout clock)

/-- `_update_hosts_and_services_of_unresponsive_instances`. -/
def check (timeout : ℕ) (s : Instances) (now : Time) (clock : ℕ → Time) : Instances :=
  if timeout = 0 then s
  else if s.stored_timestamps.map.entries.isEmpty ∨ difftime now s.oldest_timestamp ≤ timeout then s
  else s.scanned timeout clock

theorem check_cases (timeout : ℕ) (s : Instances) (now : Time) (clock : ℕ → Time) :
    (s.check timeout now clock = s ∧ (timeout = 0 ∨ s.stored_timestamps.map.entries.isEmpty ∨
      difftime now s.oldest_timestamp ≤ timeout)) ∨
    s.check timeout now clock = s.scanned timeout clock := by
  unfold check
  split
  · rename_i htimeout
    exact .inl ⟨rfl, .inl htimeout⟩
  split
  · rename_i hguard
    exact .inl ⟨rfl, .inr hguard⟩
  · exact .inr rfl

end Instances

/-! ## Runs -/

inductive Action where
  /-- An event that is passed to `_is_valid_poller`. -/
  | event (poller_id : ℕ) (now : Time)
  /-- The check, until `last`. It reads the clock, then once more at each timestamp. -/
  | check (now : Time) (clock : ℕ → Time) (last : Time)

namespace Instances

def step (timeout : ℕ) (s : Instances) : Action → Instances
  | .event id now => (s.is_valid_poller id now).2
  | .check now clock _ => s.check timeout now clock

def run (timeout : ℕ) (acts : List Action) (s : Instances) : Instances := acts.foldl (step timeout) s

end Instances

/-- The clock does not go back, from `t` on. -/
def Clock : Time → List Action → Prop
  | _, [] => True
  | t, .event _ now :: acts => t.sec ≤ now.sec ∧ Clock now acts
  | t, .check now clock last :: acts =>
    t.sec ≤ now.sec ∧ (∀ id, now.sec ≤ (clock id).sec ∧ (clock id).sec ≤ last.sec) ∧ Clock last acts

theorem Clock.event_le {t : Time} {pre post : List Action} {now : Time} {clock : ℕ → Time}
    {last : Time} (h : Clock t (pre ++ .check now clock last :: post)) :
    t.sec ≤ now.sec ∧ (∀ id, now.sec ≤ (clock id).sec) ∧
      ∀ id ts, Action.event id ts ∈ pre → ts.sec ≤ now.sec := by
  induction pre generalizing t with
  | nil =>
    obtain ⟨hle, hreads, -⟩ := h
    refine ⟨hle, fun id => (hreads id).1, ?_⟩
    intro id ts hmem
    cases hmem
  | cons a pre ih =>
    cases a with
    | event id' now' =>
      obtain ⟨hle, hrest⟩ := h
      obtain ⟨hnow, hreads, hevents⟩ := ih hrest
      refine ⟨hle.trans hnow, hreads, ?_⟩
      intro id ts hmem
      rcases List.mem_cons.mp hmem with heq | hmem
      · cases heq
        exact hnow
      · exact hevents id ts hmem
    | check now' clock' last' =>
      obtain ⟨hle, hreads', hrest⟩ := h
      obtain ⟨hlast, hreads, hevents⟩ := ih hrest
      have hspan := hreads' 0
      refine ⟨by omega, hreads, ?_⟩
      intro id ts hmem
      rcases List.mem_cons.mp hmem with heq | hmem
      · cases heq
      · exact hevents id ts hmem

/-! ## What was written for a poller -/

/-- The events `responsive_instance` of a poller. -/
def published (id : ℕ) : Output → Option Bool
  | .responsive_instance poller_id responsive => if poller_id = id then some responsive else none
  | _ => none

/-- The states of its hosts and services: `false` where they are saved, `true` where restored. -/
def moved (id : ℕ) : Output → Option Bool
  | .save_states instance_id => if instance_id = id then some false else none
  | .restore_states instance_id => if instance_id = id then some true else none
  | _ => none

/-- The column `outdated` of the instance. -/
def marked (id : ℕ) : Output → Option Bool
  | .outdated instance_id value => if instance_id = id then some !value else none
  | _ => none

/-- One of the three. -/
def Reads (id : ℕ) (f : Output → Option Bool) : Prop :=
  ∀ id' b, (updateInstance id' b).filterMap f = if id' = id then [b] else []

theorem reads_published (id : ℕ) : Reads id (published id) := by
  intro id' b
  cases b <;> by_cases h : id' = id <;> simp [updateInstance, List.filterMap_cons, published, h]

theorem reads_moved (id : ℕ) : Reads id (moved id) := by
  intro id' b
  cases b <;> by_cases h : id' = id <;> simp [updateInstance, List.filterMap_cons, moved, h]

theorem reads_marked (id : ℕ) : Reads id (marked id) := by
  intro id' b
  cases b <;> by_cases h : id' = id <;> simp [updateInstance, List.filterMap_cons, marked, h]

/-- No two that follow each other are the same, from `b` to `b'`. -/
def Alternates (b : Bool) (l : List Bool) (b' : Bool) : Prop :=
  (b :: l).IsChain (· ≠ ·) ∧ (b :: l).getLast? = some b'

theorem Alternates.nil (b : Bool) : Alternates b [] b := ⟨List.isChain_singleton b, rfl⟩

theorem Alternates.snoc {b b' : Bool} {l : List Bool} (h : Alternates b l b') :
    Alternates b (l ++ [!b']) (!b') := by
  refine ⟨?_, by rw [← List.cons_append, List.getLast?_concat]⟩
  rw [← List.cons_append, List.isChain_append]
  refine ⟨h.1, List.isChain_singleton _, ?_⟩
  intro x hx y hy
  rw [h.2] at hx
  cases hx
  cases hy
  cases b' <;> decide

namespace Instances

/-- A poller that is not known is not unresponsive. -/
def responsive (s : Instances) (id : ℕ) : Bool :=
  !(s.stored_timestamps.find id).any (·.state = .unresponsive)

variable {id : ℕ}

theorem filterMap_outdatedOutput {f : Output → Option Bool} (hf : Reads id f)
    (timeout : ℕ) (clock : ℕ → Time) {l : List (Σ _ : ℕ, StoredTimestamp)} (hkeys : l.NodupKeys)
    (hid : ∀ e ∈ l, e.2.instance_id = e.1) :
    (l.flatMap (outdatedOutput timeout clock)).filterMap f =
      if (l.dlookup id).any (·.expires timeout (clock id)) then [false] else [] := by
  induction l with
  | nil => rfl
  | cons e l ih =>
    obtain ⟨hnot, hkeys⟩ := List.nodupKeys_cons.mp hkeys
    have hhead : (outdatedOutput timeout clock e).filterMap f =
        if e.1 = id ∧ e.2.expires timeout (clock e.1) then [false] else [] := by
      unfold outdatedOutput
      split
      · rename_i hexpires
        rw [hf, hid e List.mem_cons_self]
        simp [hexpires]
      · rename_i hlive
        simp [hlive]
    rw [List.flatMap_cons, List.filterMap_append, hhead,
      ih hkeys fun e he => hid e (List.mem_cons_of_mem _ he)]
    obtain ⟨id', t⟩ := e
    by_cases h : id = id'
    · -- the other entries are of other pollers
      subst h
      rw [List.dlookup_eq_none.mpr hnot, List.dlookup_cons_eq]
      simp
    · rw [List.dlookup_cons_ne _ _ h]
      simp [Ne.symm h]

/-! ## The invariant -/

/-- The responsive timestamps, against the cached minimum and the events that there were. -/
structure Tracked (acts : List Action) (s : Instances) : Prop where
  /-- No responsive timestamp is older than the cached minimum. -/
  oldest : ∀ id t, s.stored_timestamps.find id = some t → t.state = .responsive →
    s.oldest_timestamp.sec ≤ t.ts.sec
  /-- The time of an event of the poller. -/
  heard : ∀ id t, s.stored_timestamps.find id = some t → t.state = .responsive →
    .event id t.ts ∈ acts

theorem find_foldl_put (outdated : List ℕ) (s : Timestamps) (id : ℕ) :
    (outdated.foldl (fun s id => s.put id Time.max .unresponsive) s).find id =
      if id ∈ outdated then some ⟨id, Time.max, .unresponsive⟩ else s.find id := by
  induction outdated generalizing s with
  | nil => rfl
  | cons id' outdated ih =>
    rw [List.foldl_cons, ih]
    by_cases h : id = id'
    · subst h
      simp
    · rw [Timestamps.find_put_ne _ _ _ h]
      simp [h]

theorem find_load (outdated deleted : List ℕ) (id : ℕ) :
    (load outdated deleted).stored_timestamps.find id =
      if id ∈ outdated then some ⟨id, Time.max, .unresponsive⟩ else none :=
  find_foldl_put outdated .empty id

theorem tracked_load (outdated deleted : List ℕ) : Tracked [] (load outdated deleted) := by
  have hnone : ∀ id t, (load outdated deleted).stored_timestamps.find id = some t →
      t.state ≠ .responsive := by
    intro id t h hstate
    rw [find_load] at h
    split at h
    · cases h
      cases hstate
    · cases h
  exact ⟨fun id t h hstate => absurd hstate (hnone id t h),
    fun id t h hstate => absurd hstate (hnone id t h)⟩

variable {s : Instances} {acts : List Action}

theorem Tracked.mono (h : Tracked acts s) (a : Action) :
    Tracked (acts ++ [a]) s :=
  ⟨h.oldest, fun id t hfind hstate => List.mem_append_left _ (h.heard id t hfind hstate)⟩

theorem Tracked.update_timestamp (h : Tracked acts s) (id : ℕ)
    (now : Time) : Tracked (acts ++ [.event id now]) (s.update_timestamp id now) where
  oldest := by
    intro id' t hfind hstate
    have hle : (s.update_timestamp id now).oldest_timestamp.sec ≤ s.oldest_timestamp.sec ∧
        (s.update_timestamp id now).oldest_timestamp.sec ≤ now.sec := by
      simp only [Instances.update_timestamp]
      split <;> omega
    by_cases hid : id' = id
    · subst hid
      rw [Instances.update_timestamp, Timestamps.find_put_self] at hfind
      cases hfind
      exact hle.2
    · rw [Instances.update_timestamp, Timestamps.find_put_ne _ _ _ hid] at hfind
      exact hle.1.trans (h.oldest id' t hfind hstate)
  heard := by
    intro id' t hfind hstate
    by_cases hid : id' = id
    · subst hid
      rw [Instances.update_timestamp, Timestamps.find_put_self] at hfind
      cases hfind
      exact List.mem_append_right _ List.mem_cons_self
    · rw [Instances.update_timestamp, Timestamps.find_put_ne _ _ _ hid] at hfind
      exact List.mem_append_left _ (h.heard id' t hfind hstate)

variable {clock : ℕ → Time} {t : StoredTimestamp} {timeout : ℕ}

theorem find_scanned
    (h : (s.scanned timeout clock).stored_timestamps.find id = some t) (hstate : t.state = .responsive) :
    s.stored_timestamps.find id = some t ∧ difftime (clock id) t.ts ≤ timeout := by
  rw [scanned, Timestamps.find_scan] at h
  obtain ⟨t₀, hfind, rfl⟩ := Option.map_eq_some_iff.mp h
  obtain ⟨heq, -, hlive⟩ := StoredTimestamp.of_checked hstate
  rw [heq]
  exact ⟨hfind, hlive⟩

/-- What is responsive after the check was before it, with its timestamp. -/
theorem find_check {now : Time}
    (h : (s.check timeout now clock).stored_timestamps.find id = some t)
    (hstate : t.state = .responsive) : s.stored_timestamps.find id = some t := by
  rcases check_cases timeout s now clock with ⟨heq, -⟩ | heq
  · rw [heq] at h
    exact h
  · rw [heq] at h
    exact (find_scanned h hstate).1

theorem Tracked.check (h : Tracked acts s) (timeout : ℕ)
    (now : Time) (clock : ℕ → Time) : Tracked acts (s.check timeout now clock) where
  oldest := by
    intro id t hfind hstate
    rcases check_cases timeout s now clock with ⟨heq, -⟩ | heq
    · rw [heq] at hfind ⊢
      exact h.oldest id t hfind hstate
    · rw [heq] at hfind ⊢
      exact Timestamps.oldest_le hfind hstate
  heard := by
    intro id t hfind hstate
    exact h.heard id t (find_check hfind hstate) hstate

theorem Tracked.step (h : Tracked acts s) (timeout : ℕ)
    (a : Action) : Tracked (acts ++ [a]) (step timeout s a) := by
  cases a with
  | event id now =>
    simp only [Instances.step, is_valid_poller]
    split
    · exact h.mono _
    · exact h.update_timestamp id now
  | check now clock last => exact (h.check timeout now clock).mono _

/-- After a check no responsive poller is older than the timeout, whatever the cached minimum was. -/
theorem Tracked.within (h : Tracked acts s)
    (htimeout : 0 < timeout) {now : Time} (hreads : ∀ id, now.sec ≤ (clock id).sec)

    (hfind : (s.check timeout now clock).stored_timestamps.find id = some t)
    (hstate : t.state = .responsive) : difftime now t.ts ≤ timeout := by
  have hbefore := find_check hfind hstate
  rcases check_cases timeout s now clock with ⟨-, hzero | hempty | hyoung⟩ | heq
  · omega
  · have hmem : (⟨id, t⟩ : Σ _ : ℕ, StoredTimestamp) ∈ s.stored_timestamps.map.entries :=
      AList.mem_lookup_iff.mp hbefore
    rw [List.isEmpty_iff.mp hempty] at hmem
    cases hmem
  · -- the guard stopped the check, and the cached minimum speaks for the poller
    have hle := h.oldest id t hbefore hstate
    unfold difftime at hyoung ⊢
    omega
  · rw [heq] at hfind
    have hlive := (find_scanned hfind hstate).2
    have hread := hreads id
    unfold difftime at hlive ⊢
    omega

/-- What was written for a poller alternates, and ends with the state that it is in. -/
def Follows (b : Bool) (id : ℕ) (s : Instances) : Prop :=
  ∀ f, Reads id f → Alternates b (s.out.filterMap f) (s.responsive id)

theorem Follows.update_timestamp {b : Bool} (h : Follows b id s) (id' : ℕ)
    (now : Time) : Follows b id (s.update_timestamp id' now) := by
  intro f hf
  have hout : (s.update_timestamp id' now).out.filterMap f = s.out.filterMap f ++
      if s.responsive id' = false ∧ id' = id then [true] else [] := by
    simp only [Instances.update_timestamp, List.filterMap_append, responsive, Bool.not_eq_false']
    split
    · rename_i hun
      simp [hun, hf id' true]
    · rename_i hlive
      simp [hlive]
  rw [hout]
  by_cases hid : id' = id
  · subst hid
    have hnow : (s.update_timestamp id' now).responsive id' = true := by
      simp [responsive, Instances.update_timestamp]
    rw [hnow]
    cases hwas : s.responsive id' with
    | true =>
      have hal := h f hf
      rw [hwas] at hal
      simpa using hal
    | false =>
      have hal := (h f hf).snoc
      rw [hwas] at hal
      simpa using hal
  · have hnow : (s.update_timestamp id' now).responsive id = s.responsive id := by
      simp only [responsive, Instances.update_timestamp]
      rw [Timestamps.find_put_ne _ _ _ (Ne.symm hid)]
    rw [hnow]
    simpa [hid] using h f hf

theorem Follows.check {b : Bool} (h : Follows b id s) (timeout : ℕ)
    (now : Time) (clock : ℕ → Time) : Follows b id (s.check timeout now clock) := by
  rcases check_cases timeout s now clock with ⟨heq, -⟩ | heq
  · rw [heq]
    exact h
  rw [heq]
  intro f hf
  dsimp only [scanned]
  rw [List.filterMap_append, filterMap_outdatedOutput hf timeout clock s.stored_timestamps.map.nodupKeys
    s.stored_timestamps.get_id]
  have hlookup : s.stored_timestamps.map.entries.dlookup id = s.stored_timestamps.find id := rfl
  rw [hlookup]
  have hal := h f hf
  unfold responsive at hal ⊢
  rw [Timestamps.find_scan]
  cases hfind : s.stored_timestamps.find id with
  | none =>
    rw [hfind] at hal
    simpa using hal
  | some t =>
    rw [hfind] at hal
    cases hexpires : t.expires timeout (clock id) with
    | false =>
      have hkept : t.checked timeout (clock id) = t := if_neg (by rw [hexpires]; decide)
      simpa [hexpires, hkept] using hal
    | true =>
      have hstate : t.state = .responsive := by
        simp only [StoredTimestamp.expires, Bool.and_eq_true, decide_eq_true_eq] at hexpires
        exact hexpires.1
      have hsnoc := hal.snoc
      simpa [hexpires, StoredTimestamp.checked_of_expires hexpires, StoredTimestamp.set_state,
        hstate] using hsnoc

theorem Follows.step {b : Bool} (h : Follows b id s) (timeout : ℕ)
    (a : Action) : Follows b id (step timeout s a) := by
  cases a with
  | event id' now =>
    simp only [Instances.step, is_valid_poller]
    split
    · exact h
    · exact h.update_timestamp id' now
  | check now clock last => exact h.check timeout now clock

/-- An update of an instance is written as a whole. -/
def Whole (s : Instances) : Prop :=
  ∃ updates : List (ℕ × Bool), s.out = updates.flatMap fun p => updateInstance p.1 p.2

theorem Whole.append {s' : Instances} (h : Whole s) (updates : List (ℕ × Bool))
    (hout : s'.out = s.out ++ updates.flatMap fun p => updateInstance p.1 p.2) : Whole s' := by
  obtain ⟨before, hbefore⟩ := h
  exact ⟨before ++ updates, by rw [hout, hbefore, List.flatMap_append]⟩

theorem Whole.step (h : Whole s) (timeout : ℕ) (a : Action) :
    Whole (step timeout s a) := by
  cases a with
  | event id now =>
    simp only [Instances.step, is_valid_poller]
    split
    · exact h
    · refine h.append (if (s.stored_timestamps.find id).any (·.state = .unresponsive) then
        [(id, true)] else []) ?_
      simp only [Instances.update_timestamp]
      split <;> simp
  | check now clock last =>
    simp only [Instances.step]
    rcases check_cases timeout s now clock with ⟨heq, -⟩ | heq
    · rw [heq]
      exact h
    · rw [heq]
      refine h.append (s.stored_timestamps.map.entries.flatMap fun e =>
        if e.2.expires timeout (clock e.1) then [(e.2.instance_id, false)] else []) ?_
      simp only [scanned, List.flatMap_assoc]
      congr 2
      funext e
      unfold outdatedOutput
      split <;> simp

/-- The queries and the event go together. -/
theorem Whole.reads (h : Whole s) {f g : Output → Option Bool}
    (hf : Reads id f) (hg : Reads id g) : s.out.filterMap f = s.out.filterMap g := by
  obtain ⟨updates, hout⟩ := h
  rw [hout, List.filterMap_flatMap, List.filterMap_flatMap]
  congr 1
  funext p
  rw [hf, hg]

theorem whole_run (timeout : ℕ) (outdated deleted : List ℕ) (acts : List Action) :
    Whole (run timeout acts (load outdated deleted)) := by
  induction acts using List.reverseRecOn with
  | nil => exact ⟨[], rfl⟩
  | append_singleton acts a ih =>
    rw [run, List.foldl_concat]
    exact Whole.step ih timeout a

theorem tracked_run (timeout : ℕ) (outdated deleted : List ℕ) (acts : List Action) :
    Tracked acts (run timeout acts (load outdated deleted)) := by
  induction acts using List.reverseRecOn with
  | nil => exact tracked_load outdated deleted
  | append_singleton acts a ih =>
    rw [run, List.foldl_concat]
    exact Tracked.step ih timeout a

theorem follows_run (timeout : ℕ) (outdated deleted : List ℕ) (acts : List Action) (id : ℕ) :
    Follows (id ∉ outdated) id (run timeout acts (load outdated deleted)) := by
  induction acts using List.reverseRecOn with
  | nil =>
    intro f hf
    have hnow : (load outdated deleted).responsive id = decide (id ∉ outdated) := by
      rw [responsive, find_load]
      split
      · rename_i h
        simp [h]
      · rename_i h
        simp [h]
    show Alternates _ [] ((load outdated deleted).responsive id)
    rw [hnow]
    exact Alternates.nil _
  | append_singleton acts a ih =>
    rw [run, List.foldl_concat]
    exact Follows.step ih timeout a

/-- In every run the cached minimum is not above a responsive timestamp; after each check the
responsive pollers were heard within the timeout; and what is written for a poller alternates. -/
theorem responsiveness {timeout : ℕ} (htimeout : 0 < timeout) (outdated deleted : List ℕ)
    {first : Time} {acts : List Action} (hclock : Clock first acts) :
    (∀ id t, (run timeout acts (load outdated deleted)).stored_timestamps.find id = some t →
      t.state = .responsive →
        (run timeout acts (load outdated deleted)).oldest_timestamp.sec ≤ t.ts.sec) ∧
    (∀ pre now clock last post, acts = pre ++ .check now clock last :: post →
      ∀ id t, (run timeout (pre ++ [.check now clock last])
          (load outdated deleted)).stored_timestamps.find id = some t →
        t.state = .responsive → .event id t.ts ∈ pre ∧ t.ts.sec ≤ now.sec ∧
          difftime now t.ts ≤ timeout) ∧
    ∀ id, (decide (id ∉ outdated) ::
        (run timeout acts (load outdated deleted)).out.filterMap (published id)).IsChain (· ≠ ·) ∧
      (run timeout acts (load outdated deleted)).out.filterMap (moved id) =
        (run timeout acts (load outdated deleted)).out.filterMap (published id) ∧
      (run timeout acts (load outdated deleted)).out.filterMap (marked id) =
        (run timeout acts (load outdated deleted)).out.filterMap (published id) := by
  refine ⟨(tracked_run timeout outdated deleted acts).oldest, ?_, ?_⟩
  · intro pre now clock last post hacts id t hfind hstate
    subst hacts
    obtain ⟨-, hreads, hevents⟩ := hclock.event_le
    have htracked := tracked_run timeout outdated deleted pre
    rw [run, List.foldl_concat] at hfind
    have hheard := htracked.heard id t (find_check hfind hstate) hstate
    exact ⟨hheard, hevents id t.ts hheard, htracked.within htimeout hreads hfind hstate⟩
  · intro id
    have hwhole := whole_run timeout outdated deleted acts
    exact ⟨(follows_run timeout outdated deleted acts id _ (reads_published id)).1,
      hwhole.reads (reads_moved id) (reads_published id),
      hwhole.reads (reads_marked id) (reads_published id)⟩

def second (n : Fin 60) : Time := ⟨n, by omega, by omega⟩

/-- Poller 1 comes back, is silent for longer than five seconds, and comes back again. -/
def silence : List Action :=
  [.event 1 (second 10), .event 2 (second 13), .check (second 17) (fun _ => second 17) (second 17),
    .event 1 (second 20)]

theorem clock_silence : Clock (second 0) silence := by
  refine ⟨by decide, by decide, by decide, ?_, by decide, trivial⟩
  intro id
  exact ⟨le_refl _, le_refl _⟩

theorem responsiveness_silence :
    (run 5 silence (load [1] [])).out.filterMap (published 1) = [true, false, true] ∧
      (run 5 silence (load [1] [])).out.filterMap (moved 1) = [true, false, true] ∧
      ∀ t, (run 5 (silence.take 3) (load [1] [])).stored_timestamps.find 2 = some t →
        t.state = .responsive → difftime (second 17) t.ts ≤ 5 := by
  obtain ⟨-, hwithin, halternates⟩ :=
    @responsiveness 5 (by decide) [1] [] (second 0) silence clock_silence
  have hpublished : (run 5 silence (load [1] [])).out.filterMap (published 1) = [true, false, true] :=
    by decide
  refine ⟨hpublished, (halternates 1).2.1.trans hpublished, ?_⟩
  intro t hfind hstate
  exact (hwithin (silence.take 2) (second 17) (fun _ => second 17) (second 17)
    [.event 1 (second 20)] rfl 2 t hfind hstate).2.2

end Instances

end CentreonBroker.Storage.Responsive
