import CentreonBroker.PersistentSave

/-!
# The inherited downtimes in the persistent cache

When the stream of the BAs is destroyed, their inherited downtimes are written to its persistent
cache, in one transaction. When it is there again, they are read back. The loop that reads them
fetches the next event at its end only, so that it never comes past an event of another type.
-/

namespace CentreonBroker.Bam.DowntimeCache

open PersistentCache Bytes

/-- `inherited_downtime`. -/
structure InheritedDowntime where
  ba_id : UInt32
  in_downtime : Bool
  deriving DecidableEq

/-- An event of the cache, of those that `get` returns: at a type that is not registered it returns
nothing, which ends the loading, and the control messages of BBDO it keeps to itself. -/
inductive CacheEvent where
  | inherited_downtime (dwn : InheritedDowntime)
  | other (type : UInt32)
  deriving DecidableEq

abbrev CacheState := PersistentCache.State CacheEvent

/-- `_applied`: its keys, and the member `_inherited_downtime` of each BA. -/
structure Applied where
  ids : List UInt32
  inherited : UInt32 → Option InheritedDowntime
  /-- A BA only has downtimes of its own. -/
  own : ∀ id dwn, inherited id = some dwn → dwn.ba_id = id

/-- `set_inherited_downtime` of the BA that the downtime is for, if it is there. -/
def Applied.set_inherited_downtime (dwn : InheritedDowntime) (applied : Applied) : Applied :=
  if dwn.ba_id ∈ applied.ids then
    { applied with
      inherited := Function.update applied.inherited dwn.ba_id (some dwn)
      own := by
        intro id dwn' h
        by_cases hid : id = dwn.ba_id
        · subst hid
          rw [Function.update_self] at h
          exact congrArg InheritedDowntime.ba_id (Option.some.inj h).symm
        · rw [Function.update_of_ne hid] at h
          exact applied.own id dwn' h }
  else applied

/-- The same BAs as they are created. -/
def Applied.created (applied : Applied) : Applied where
  ids := applied.ids
  inherited _ := none
  own := nofun

/-- What `save_inherited_downtime` adds, for each BA. -/
def Applied.saved (applied : Applied) : List CacheEvent :=
  applied.ids.filterMap fun id => (applied.inherited id).map .inherited_downtime

/-- The calls of `save_to_cache`. -/
def save_to_cache (applied : Applied) : List (Op CacheEvent) :=
  .transaction :: (applied.saved.map .add ++ [.commit none])

/-- The event of a call of `get`. -/
def eventOf : Reply CacheEvent → Option CacheEvent
  | .event e => e
  | _ => none

/-- The inherited downtime that some events hold for a BA: the last one. -/
def heldFor (id : UInt32) (events : List CacheEvent) : Option InheritedDowntime :=
  events.foldl (fun held e =>
    match e with
    | .inherited_downtime dwn => if dwn.ba_id = id then some dwn else held
    | .other _ => held) none

section Loading

variable [EventCodec CacheEvent]

/-- The loop of `load_from_cache` on the event `d`, if it ends within so many turns. -/
def loadLoop : ℕ → Option CacheEvent → CacheState → Applied → Option Applied
  | 0, _, _, _ => none
  | _ + 1, none, _, applied => some applied
  -- `continue`: no other event is fetched
  | turns + 1, some (.other type), s, applied => loadLoop turns (some (.other type)) s applied
  | turns + 1, some (.inherited_downtime dwn), s, applied =>
    let (r, s) := step .get s
    loadLoop turns (eventOf r) s (applied.set_inherited_downtime dwn)

def load_from_cache (turns : ℕ) (s : CacheState) (applied : Applied) : Option Applied :=
  let (r, s) := step .get s
  loadLoop turns (eventOf r) s applied

/-- Loading comes to an end, and each BA has the inherited downtime that the cache holds for it. -/
def Restores (s : CacheState) (content : List CacheEvent) (applied : Applied) : Prop :=
  ∃ turns applied', load_from_cache turns s applied = some applied' ∧ applied'.ids = applied.ids ∧
    ∀ id ∈ applied.ids, applied'.inherited id = heldFor id content

end Loading

/-! ## What the loop does -/

/-- The downtimes that some events leave, from what the BAs had. -/
def Applied.setAll (events : List CacheEvent) (applied : Applied) : Applied :=
  events.foldl (fun applied e =>
    match e with
    | .inherited_downtime dwn => applied.set_inherited_downtime dwn
    | .other _ => applied) applied

theorem ids_set_inherited_downtime (dwn : InheritedDowntime) (applied : Applied) :
    (applied.set_inherited_downtime dwn).ids = applied.ids := by
  rw [Applied.set_inherited_downtime]
  split <;> rfl

theorem inherited_set_inherited_downtime (dwn : InheritedDowntime) {applied : Applied} {id : UInt32}
    (hid : id ∈ applied.ids) : (applied.set_inherited_downtime dwn).inherited id =
      if dwn.ba_id = id then some dwn else applied.inherited id := by
  rw [Applied.set_inherited_downtime]
  by_cases heq : dwn.ba_id = id
  · subst heq
    rw [if_pos hid, if_pos rfl]
    exact Function.update_self _ _ _
  · rw [if_neg heq]
    split
    · exact Function.update_of_ne (Ne.symm heq) _ _
    · rfl

theorem ids_setAll (events : List CacheEvent) (applied : Applied) :
    (applied.setAll events).ids = applied.ids := by
  induction events generalizing applied with
  | nil => rfl
  | cons e events ih =>
    cases e with
    | inherited_downtime dwn => exact (ih _).trans (ids_set_inherited_downtime dwn applied)
    | other type => exact ih applied

/-- What a BA had stays where no event is for it. -/
theorem inherited_setAll (events : List CacheEvent) {applied : Applied} {id : UInt32}
    (hid : id ∈ applied.ids) : (applied.setAll events).inherited id =
        events.foldl (fun held e =>
          match e with
          | .inherited_downtime dwn => if dwn.ba_id = id then some dwn else held
          | .other _ => held) (applied.inherited id) := by
  induction events generalizing applied with
  | nil => rfl
  | cons e events ih =>
    cases e with
    | inherited_downtime dwn =>
      have hids := ids_set_inherited_downtime dwn applied
      have hheld := @ih (applied.set_inherited_downtime dwn) (hids ▸ hid)
      rw [inherited_set_inherited_downtime dwn hid] at hheld
      exact hheld
    | other type => exact ih hid

/-- Starting from a downtime only matters where the events have none. -/
theorem foldl_held (id : UInt32) (events : List CacheEvent) (held : Option InheritedDowntime) :
    events.foldl (fun held e =>
      match e with
      | .inherited_downtime dwn => if dwn.ba_id = id then some dwn else held
      | .other _ => held) held = (heldFor id events).or held := by
  induction events using List.reverseRecOn with
  | nil => rfl
  | append_singleton events e ih =>
    rw [heldFor, List.foldl_append, List.foldl_append, ih, ← heldFor]
    cases e with
    | inherited_downtime dwn =>
      show (if dwn.ba_id = id then some dwn else (heldFor id events).or held) =
        (if dwn.ba_id = id then some dwn else heldFor id events).or held
      split <;> rfl
    | other type => rfl

theorem heldFor_append (id : UInt32) (events events' : List CacheEvent) :
    heldFor id (events ++ events') = (heldFor id events').or (heldFor id events) := by
  rw [heldFor, List.foldl_append, foldl_held, ← heldFor]

section Loading

variable [EventCodec CacheEvent]

omit [EventCodec CacheEvent] in
theorem eventOf_eq (r : Reply CacheEvent) : eventOf r = r.given := by
  cases r <;> rfl

variable {o : Opened CacheEvent} {s : CacheState} {l : List CacheEvent}

/-- What is still to be read is what an object gives. -/
theorem step_get
    (h : Holds s ⟨l, some o⟩) : eventOf (step .get s).1 = (o.unread.getD l).head? ∧
      Holds (step .get s).2 ⟨l, some { o with unread := some (o.unread.getD l).tail }⟩ := by
  rw [eventOf_eq]
  exact given_get h

variable {events : List CacheEvent}

/-- Without an event of another type the loop sets them all. -/
theorem loadLoop_eq
    (hevents : ∀ e ∈ events, ∃ dwn, e = .inherited_downtime dwn)
    (h : Holds s ⟨l, some o⟩)
    (hunread : o.unread.getD l = events.tail) (applied : Applied) :
    loadLoop (events.length + 1) events.head? s applied = some (applied.setAll events) := by
  induction events generalizing s o applied with
  | nil => rfl
  | cons e events ih =>
    obtain ⟨dwn, rfl⟩ := hevents e List.mem_cons_self
    obtain ⟨hevent, hnext⟩ := step_get h
    rw [hunread] at hevent hnext
    rw [List.length_cons, List.head?_cons, loadLoop]
    show loadLoop _ (eventOf (step .get s).1) _ _ = _
    rw [hevent]
    exact ih (fun e he => hevents e (List.mem_cons_of_mem _ he)) hnext rfl _

/-- An event of another type is met, and the loop stays there. -/
theorem loadLoop_other (type : UInt32) (turns : ℕ) (s : CacheState) (applied : Applied) :
    loadLoop turns (some (.other type)) s applied = none := by
  induction turns with
  | zero => rfl
  | succ turns ih => exact ih

theorem loadLoop_none {type : UInt32} (hmem : .other type ∈ events)
    (h : Holds s ⟨l, some o⟩)
    (hunread : o.unread.getD l = events.tail) (turns : ℕ) (applied : Applied) :
    loadLoop turns events.head? s applied = none := by
  induction events generalizing s o turns applied with
  | nil => exact absurd hmem List.not_mem_nil
  | cons e events ih =>
    cases turns with
    | zero => rfl
    | succ turns =>
      cases e with
      | other type' => exact loadLoop_other type' (turns + 1) s applied
      | inherited_downtime dwn =>
        have hmem : .other type ∈ events := by
          rcases List.mem_cons.mp hmem with heq | hmem
          · cases heq
          · exact hmem
        obtain ⟨hevent, hnext⟩ := step_get h
        rw [hunread] at hevent hnext
        rw [List.head?_cons, loadLoop]
        show loadLoop _ (eventOf (step .get s).1) _ _ = _
        rw [hevent]
        exact ih hmem hnext rfl turns _

/-- A loop that ends has set them all. -/
theorem setAll_of_loadLoop {turns : ℕ}
    (hevents : ∀ e ∈ events, ∃ dwn, e = .inherited_downtime dwn)
    (h : Holds s ⟨l, some o⟩)
    (hunread : o.unread.getD l = events.tail) {applied applied' : Applied}
    (hloaded : loadLoop turns events.head? s applied = some applied') :
    applied' = applied.setAll events := by
  induction turns generalizing events s o applied with
  | zero => cases hloaded
  | succ turns ih =>
    cases events with
    | nil => exact (Option.some.inj hloaded).symm
    | cons e events =>
      obtain ⟨dwn, rfl⟩ := hevents e List.mem_cons_self
      obtain ⟨hevent, hnext⟩ := step_get h
      rw [hunread] at hevent hnext
      have hrest : loadLoop turns (eventOf (step .get s).1) (step .get s).2
          (applied.set_inherited_downtime dwn) = some applied' := hloaded
      rw [hevent] at hrest
      exact ih (fun e he => hevents e (List.mem_cons_of_mem _ he)) hnext rfl hrest

/-- The first event is fetched before the loop. -/
theorem load_from_cache_eq {content : List CacheEvent}
    (h : Holds s ⟨content, some o⟩)
    (hunread : o.unread.getD content = content) (turns : ℕ) (applied : Applied) :
    load_from_cache turns s applied =
      loadLoop turns content.head? (step .get s).2 applied := by
  obtain ⟨hevent, -⟩ := step_get h
  rw [hunread] at hevent
  show loadLoop turns (eventOf (step .get s).1) (step .get s).2 applied = _
  rw [hevent]

/-- **When loading restores the inherited downtimes.** -/
theorem restores_iff {content : List CacheEvent}
    (h : Holds s ⟨content, some o⟩) (hunread : o.unread.getD content = content)
    (applied : Applied) :
    Restores s content applied ↔ (∀ e ∈ content, ∃ dwn, e = .inherited_downtime dwn) ∧
      ∀ id ∈ applied.ids, (applied.inherited id).isSome → (heldFor id content).isSome := by
  have hload := fun turns => load_from_cache_eq h hunread turns applied
  obtain ⟨-, hnext⟩ := step_get h
  rw [hunread] at hnext
  constructor
  · rintro ⟨turns, applied', hloaded, -, hheld⟩
    rw [hload] at hloaded
    have hevents : ∀ e ∈ content, ∃ dwn, e = .inherited_downtime dwn := by
      intro e he
      cases e with
      | inherited_downtime dwn => exact ⟨dwn, rfl⟩
      | other type =>
        rw [loadLoop_none he hnext rfl] at hloaded
        cases hloaded
    refine ⟨hevents, fun id hid hbefore => ?_⟩
    have hset := hheld id hid
    rw [setAll_of_loadLoop hevents hnext rfl hloaded, inherited_setAll content hid,
      foldl_held] at hset
    cases hnone : heldFor id content with
    | some dwn => rfl
    | none =>
      rw [hnone] at hset
      have hset : applied.inherited id = none := hset
      rw [hset] at hbefore
      cases hbefore
  · rintro ⟨hevents, hbefore⟩
    refine ⟨content.length + 1, applied.setAll content, ?_, ids_setAll content applied, ?_⟩
    · rw [hload]
      exact loadLoop_eq hevents hnext rfl applied
    · intro id hid
      rw [inherited_setAll content hid, foldl_held]
      cases hheld : heldFor id content with
      | some dwn => rfl
      | none =>
        -- nothing is held for the BA, so that it had nothing
        have hnone := hbefore id hid
        rw [hheld] at hnone
        cases hinherited : applied.inherited id with
        | none => rfl
        | some dwn =>
          rw [hinherited] at hnone
          exact absurd (hnone rfl) nofun

/-! ## What was saved -/

omit [EventCodec CacheEvent] in
/-- What is saved for a BA is its inherited downtime. -/
theorem heldFor_saved {applied : Applied} {id : UInt32} (hid : id ∈ applied.ids) :
    heldFor id applied.saved = applied.inherited id := by
  have hlist : ∀ ids : List UInt32,
      heldFor id (ids.filterMap fun id => (applied.inherited id).map .inherited_downtime) =
        if id ∈ ids then applied.inherited id else none := by
    intro ids
    induction ids using List.reverseRecOn with
    | nil => rfl
    | append_singleton ids id' ih =>
      rw [List.filterMap_append, heldFor_append, ih]
      cases hinherited : applied.inherited id' with
      | none =>
        by_cases heq : id' = id
        · subst heq
          simp [heldFor, hinherited]
        · simp [heldFor, hinherited, Ne.symm heq]
      | some dwn =>
        have hown := applied.own id' dwn hinherited
        by_cases heq : id' = id
        · subst heq
          simp [heldFor, hinherited, hown]
        · simp [heldFor, hinherited, hown, heq, Ne.symm heq]
  rw [Applied.saved, hlist, if_pos hid]

omit [EventCodec CacheEvent] in
theorem saved_inherited (applied : Applied) :
    ∀ e ∈ applied.saved, ∃ dwn, e = .inherited_downtime dwn := by
  intro e he
  obtain ⟨id, -, hid⟩ := List.mem_filterMap.mp he
  obtain ⟨dwn, -, rfl⟩ := Option.map_eq_some_iff.mp hid
  exact ⟨dwn, rfl⟩

/-- The BAs saved when the stream ends, and loaded when there is one again. -/
def saveAndReopen (applied : Applied) : List (Op CacheEvent) :=
  .construct :: (save_to_cache applied ++ [.destroy, .construct])

/-- Saving and loading gives every BA its inherited downtime back. -/
def RoundTrips (fs : Files Name) (applied : Applied) : Prop :=
  ∃ turns applied',
    load_from_cache turns (run (saveAndReopen applied) ⟨fs, none⟩).2 applied.created = some applied' ∧
    applied'.ids = applied.ids ∧
    ∀ id ∈ applied.ids, applied'.inherited id = applied.inherited id

theorem roundTrips {fs : Files Name} (hfresh : Fresh fs) (applied : Applied) :
    RoundTrips fs applied := by
  have hagain : Holds (run (saveAndReopen applied) ⟨fs, none⟩).2
      ⟨applied.saved, some ⟨some applied.saved, none⟩⟩ := run_savingAndOpening hfresh applied.saved
  obtain ⟨turns, applied', hloaded, hids, hheld⟩ :=
    (restores_iff hagain rfl applied.created).mpr ⟨saved_inherited applied, nofun⟩
  refine ⟨turns, applied', hloaded, hids, fun id hid => ?_⟩
  rw [hheld id hid]
  exact heldFor_saved hid

/--
**Loading the persistent cache restores the inherited downtimes when it holds nothing else**,
and every BA that had one has one in the cache. What was saved is such a content.
-/
theorem load_from_cache_restores_iff (fs : Files Name) (applied : Applied) :
    (Restores (step .construct ⟨fs, none⟩).2 (stored fs) applied ↔
      (∀ e ∈ (stored fs : List CacheEvent), ∃ dwn, e = .inherited_downtime dwn) ∧
        ∀ id ∈ applied.ids, (applied.inherited id).isSome →
          (heldFor id (stored fs)).isSome) ∧
    (Fresh fs → RoundTrips fs applied) :=
  ⟨restores_iff (construct_holds rfl) rfl applied, fun hfresh => roundTrips hfresh applied⟩

end Loading

/-! ## A cache with another event -/

/-- The number of an event in its first member, after what stands for a header. -/
def recordOf : CacheEvent → Bytes
  | .other type => List.replicate 15 0 ++ (0 :: htonl type)
  | .inherited_downtime ⟨ba_id, in_downtime⟩ =>
    List.replicate 15 0 ++ ((if in_downtime then 2 else 1) :: htonl ba_id)

def recordsIn : ℕ → Bytes → List CacheEvent
  | 0, _ => []
  | n + 1, b =>
    match b.drop 15 with
    | tag :: rest =>
      let v := ntohl rest
      (if tag = 0 then .other v else .inherited_downtime ⟨v, tag = 2⟩) :: recordsIn n (b.drop 20)
    | [] => []

theorem length_recordOf (e : CacheEvent) : (recordOf e).length = 20 := by
  cases e with
  | other type => simp [recordOf]
  | inherited_downtime dwn => simp [recordOf]

theorem recordsIn_recordOf (n : ℕ) (e : CacheEvent) (b : Bytes) :
    recordsIn (n + 1) (recordOf e ++ b) = e :: recordsIn n b := by
  have hdrop : (recordOf e ++ b).drop 20 = b := by
    rw [← length_recordOf e, List.drop_left]
  rw [recordsIn, hdrop]
  cases e with
  | other type => simp [recordOf]
  | inherited_downtime dwn =>
    obtain ⟨ba_id, in_downtime⟩ := dwn
    cases in_downtime with
    | false => simp [recordOf]
    | true => simp [recordOf]

/-- A layout of the records of the cache. -/
instance : EventCodec CacheEvent where
  serialize := recordOf
  parse b := recordsIn (b.length / 20) b
  parse_serialize l := by
    have hlength : (l.flatMap recordOf).length / 20 = l.length := by
      induction l with
      | nil => rfl
      | cons e l ih =>
        rw [List.flatMap_cons, List.length_append, length_recordOf, List.length_cons]
        omega
    rw [hlength]
    clear hlength
    induction l with
    | nil => rfl
    | cons e l ih => rw [List.flatMap_cons, List.length_cons, recordsIn_recordOf, ih]
  parse_short b hb := by
    have hzero : b.length / 20 = 0 := by omega
    rw [hzero]
    rfl

/-- A file of a cache in which these events were committed. -/
def cacheFile (events : List CacheEvent) : Files Name
  | .cache => some (File.partHeader ++ events.flatMap EventCodec.serialize)
  | _ => none

theorem stored_cacheFile (l : List CacheEvent) : stored (cacheFile l) = l :=
  (stored_of_cache rfl).trans (events_written l)

/-- No BA, as when all were deleted while the stream was away. -/
def noBa : Applied := ⟨[], fun _ => none, nofun⟩

/-- **An event of another type is never passed.** -/
theorem not_load_from_cache_restores :
    ¬ Restores (step .construct ⟨cacheFile [.other 0x1000e], none⟩).2
      (stored (cacheFile [.other 0x1000e])) noBa := by
  intro h
  obtain ⟨hevents, -⟩ := (restores_iff (construct_holds rfl) rfl noBa).mp h
  rw [stored_cacheFile] at hevents
  obtain ⟨dwn, hdwn⟩ := hevents _ List.mem_cons_self
  cases hdwn

/-- A BA in an inherited downtime gets it back. -/
def inDowntime : Applied where
  ids := [1, 2]
  inherited id := if id = 1 then some ⟨1, true⟩ else none
  own := by
    intro id dwn h
    split at h
    · rename_i hid
      rw [hid, ← Option.some.inj h]
    · cases h

theorem load_from_cache_restores_inDowntime :
    RoundTrips (cacheFile [.other 0x1000e]) inDowntime :=
  (load_from_cache_restores_iff (cacheFile [.other 0x1000e]) inDowntime).2 nofun

end CentreonBroker.Bam.DowntimeCache
