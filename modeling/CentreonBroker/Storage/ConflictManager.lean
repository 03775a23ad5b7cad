import CentreonBroker.Storage.Mfifo

/-!
# The loop of the conflict manager

Two streams push events to the queue. The loop takes all that is queued, and passes the
events to their handlers one after the other. Most handlers set the boolean of the event
themselves; some leave it to a queue that is emptied later. When a handler throws, the loop
starts again with nothing in its hands: what it had taken and not handled yet is lost.
-/

namespace CentreonBroker.Storage

/-- The stream of the monitoring data. -/
def sql : Fin 2 := ⟨0, Nat.two_pos⟩

/-- The stream of the performance data. -/
def storage : Fin 2 := ⟨1, Nat.one_lt_two⟩

/-- What the handler of an event does with it. -/
inductive Outcome where
  | processed
  | queued
  | throws
  deriving DecidableEq, Repr

/-- What the loop and the streams do. -/
inductive Act (T : Type) where
  | send_event (c : Fin 2) (e : T) (address : ℕ)
  | first_events
  | handle
  /-- One of the events in `_cv_queue` or in `_log_queue` is written. -/
  | update (k : ℕ)
  | finish_actions
  | get_acks (c : Fin 2)

/-- The loop, and what happened so far. -/
structure Manager (T : Type) where
  base : Sources T 2
  /-- `events`, of the loop. -/
  events : List (Element T 2)
  /-- The events in `_cv_queue` and in `_log_queue`. -/
  queue : List (Element T 2)
  /-- All that was taken from the queue of the streams. -/
  taken : List (Element T 2)
  /-- All that was passed to a handler. -/
  handled : List (Element T 2)
  thrown : List (Element T 2)
  /-- What was in `events` when a handler threw. -/
  lost : List (Element T 2)

namespace Manager

variable {T : Type}

def start (ack : Fin 2 → ℤ) : Manager T := ⟨Sources.start ack, [], [], [], [], [], []⟩

/-- The handler of an event, and what becomes of the rest of `events`. -/
def handleEvent (o : Outcome) (el : Element T 2) (rest : List (Element T 2)) (m : Manager T) :
    Manager T :=
  let m := { m with handled := m.handled ++ [el] }
  match o with
  | .processed => { m with base := Sources.setFlag el m.base, events := rest }
  | .queued => { m with queue := m.queue ++ [el], events := rest }
  -- `events` is made anew at the next turn
  | .throws => { m with thrown := m.thrown ++ [el], lost := m.lost ++ rest, events := [] }

/-- `_finish_actions`, once the commit is done. -/
def finish_actions (m : Manager T) : Manager T :=
  { m with base := (m.base.clean sql).clean storage }

variable (outcome : Element T 2 → Outcome)

def step (m : Manager T) : Act T → Option (Manager T)
  | .send_event c e address =>
    (m.base.step (.push c e address)).map fun base => { m with base := base }
  | .first_events =>
    if m.events.isEmpty then
      let (events, fifo) := m.base.fifo.first_events
      some { m with
        base := { m.base with fifo := fifo }, events := events, taken := m.taken ++ events }
    else none
  | .handle =>
    match m.events with
    | [] => none
    | el :: rest => some (m.handleEvent (outcome el) el rest)
  | .update k => m.queue[k]?.map fun el =>
      { m with base := Sources.setFlag el m.base, queue := m.queue.eraseIdx k }
  | .finish_actions => if m.events.isEmpty then some m.finish_actions else none
  | .get_acks c => some { m with base := m.base.get_acks c }

def run : List (Act T) → Manager T → Option (Manager T)
  | [], m => some m
  | a :: acts, m => (m.step outcome a).bind (run acts)

/-! ## The loop as a user of the queue -/

/-- The events whose boolean is still to be set. -/
def sources (m : Manager T) : Sources T 2 :=
  { m.base with taken := m.events ++ m.queue ++ (m.thrown ++ m.lost) }

/-- What is to come of the events of each stream: their ranks grow. -/
structure Ordered (m : Manager T) : Prop where
  grows : (m.events ++ m.base.fifo.events).Pairwise fun a b => a.source = b.source → a.rank < b.rank
  processed : ∀ el ∈ m.events ++ m.base.fifo.events, ∀ k,
    (m.base.pushed el.source)[k]? = some true → k < el.rank
  queue : ∀ el ∈ m.events ++ m.base.fifo.events, ∀ q ∈ m.queue, q.source = el.source →
    q.rank < el.rank

/-- What holds in every run. -/
structure Inv (ack : Fin 2 → ℤ) (m : Manager T) : Prop where
  sources : Sources.Inv ack m.sources
  ordered : Ordered m
  count : m.taken.length = m.handled.length + m.lost.length + m.events.length
  kept : m.lost = [] → m.taken = m.handled ++ m.events

theorem inv_start (ack : Fin 2 → ℤ) : Inv ack (start ack : Manager T) :=
  ⟨Sources.inv_start ack, ⟨List.Pairwise.nil, fun _ h => absurd h List.not_mem_nil,
    fun _ h => absurd h List.not_mem_nil⟩, rfl, fun _ => rfl⟩

section Steps

variable {ack : Fin 2 → ℤ} {m : Manager T}

variable {el : Element T 2}

theorem mem_held_of_events (m : Manager T)
    (h : el ∈ m.events ++ m.base.fifo.events) : el ∈ m.sources.held := by
  rcases List.mem_append.mp h with h | h
  · exact List.mem_append_right _ (List.mem_append_left _ (List.mem_append_left _ h))
  · exact List.mem_append_left _ h

theorem mem_held_of_queue (m : Manager T) (h : el ∈ m.queue) :
    el ∈ m.sources.held :=
  List.mem_append_right _ (List.mem_append_left _ (List.mem_append_right _ h))

theorem pushed_of_push {c : Fin 2} {e : T} {address : ℕ} {base w : Sources T 2}
    (hstep : w.step (.push c e address) = some base) {i : Fin 2} {k : ℕ}
    (hk : (base.pushed i)[k]? = some true) : (w.pushed i)[k]? = some true := by
  simp only [Sources.step] at hstep
  split at hstep
  · cases hstep
  · obtain rfl := Option.some.inj hstep
    have hk : (Function.update w.pushed c (w.pushed c ++ [false]) i)[k]? = some true := hk
    by_cases hi : i = c
    · subst hi
      rw [Function.update_self, List.getElem?_append] at hk
      split at hk
      · exact hk
      · rw [List.getElem?_singleton] at hk
        split at hk
        · cases hk
        · cases hk
    · rwa [Function.update_of_ne hi] at hk

theorem Inv.send_event (h : Inv ack m) {c : Fin 2} {e : T} {address : ℕ} {base : Sources T 2}
    (hstep : m.base.step (.push c e address) = some base) :
    Inv ack { m with base := base } := by
  have hpush : base = m.base.push c e address := by
    simp only [Sources.step] at hstep
    split at hstep
    · cases hstep
    · exact (Option.some.inj hstep).symm
  have hsources : Sources.Inv ack (m.sources.push c e address) := by
    refine @Sources.Inv.step _ _ _ _ h.sources (.push c e address) _ ?_
    simp only [Sources.step] at hstep ⊢
    split at hstep
    · cases hstep
    · rename_i hfree
      exact if_neg hfree
  subst hpush
  -- the new event is behind all others of its stream
  have hevents : m.events ++ (m.base.push c e address).fifo.events =
      m.events ++ m.base.fifo.events ++ [⟨e, c, address, (m.base.pushed c).length⟩] :=
    (List.append_assoc _ _ _).symm
  refine ⟨hsources, ⟨?_, fun el hel k hk => ?_, fun el hel q hq hsource => ?_⟩, h.count, h.kept⟩
  · show (m.events ++ (m.base.push c e address).fifo.events).Pairwise _
    rw [hevents, List.pairwise_append]
    refine ⟨h.ordered.grows, List.pairwise_singleton _ _, fun a ha b hb hsource => ?_⟩
    obtain rfl := List.mem_singleton.mp hb
    have hlt := h.sources.rank_lt (m.mem_held_of_events ha)
    rw [hsource] at hlt
    exact hlt
  · have hel : el ∈ m.events ++ (m.base.push c e address).fifo.events := hel
    have hk := pushed_of_push hstep hk
    rw [hevents] at hel
    rcases List.mem_append.mp hel with hel | hel
    · exact h.ordered.processed el hel k hk
    · obtain rfl := List.mem_singleton.mp hel
      exact (List.getElem?_eq_some_iff.mp hk).1
  · have hel : el ∈ m.events ++ (m.base.push c e address).fifo.events := hel
    rw [hevents] at hel
    rcases List.mem_append.mp hel with hel | hel
    · exact h.ordered.queue el hel q hq hsource
    · obtain rfl := List.mem_singleton.mp hel
      have hlt := h.sources.rank_lt (m.mem_held_of_queue hq)
      rw [hsource] at hlt
      exact hlt

theorem Inv.first_events (h : Inv ack m) (hempty : m.events = []) :
    Inv ack { m with
      base := { m.base with fifo := { m.base.fifo with events := [] } }
      events := m.base.fifo.events
      taken := m.taken ++ m.base.fifo.events } := by
  have hordered := h.ordered
  obtain ⟨hgrows, hprocessed, hqueue⟩ := hordered
  rw [hempty, List.nil_append] at hgrows hprocessed hqueue
  have hperm : ([] ++ (m.base.fifo.events ++ m.queue ++ (m.thrown ++ m.lost))).Perm m.sources.held := by
    show (m.base.fifo.events ++ m.queue ++ (m.thrown ++ m.lost)).Perm
      (m.base.fifo.events ++ (m.events ++ m.queue ++ (m.thrown ++ m.lost)))
    rw [hempty, List.nil_append, List.append_assoc]
  have hcount := h.count
  rw [hempty, List.length_nil] at hcount
  refine ⟨h.sources.rearrange hperm, ⟨?_, ?_, ?_⟩, ?_, fun hlost => ?_⟩
  · exact (List.append_nil _).symm ▸ hgrows
  · exact (List.append_nil _).symm ▸ hprocessed
  · exact (List.append_nil _).symm ▸ hqueue
  · show (m.taken ++ m.base.fifo.events).length = m.handled.length + m.lost.length + m.base.fifo.events.length
    rw [List.length_append]
    omega
  · have hkept := h.kept hlost
    rw [hempty, List.append_nil] at hkept
    show m.taken ++ m.base.fifo.events = m.handled ++ m.base.fifo.events
    rw [hkept]

theorem Inv.handle (h : Inv ack m) {rest : List (Element T 2)}
    (hevents : m.events = el :: rest) (o : Outcome) : Inv ack (m.handleEvent o el rest) := by
  obtain ⟨hgrows, hprocessed, hqueue⟩ := h.ordered
  rw [hevents, List.cons_append] at hgrows hprocessed hqueue
  obtain ⟨hbefore, hgrows⟩ := List.pairwise_cons.mp hgrows
  have hrest : ∀ el' ∈ rest ++ m.base.fifo.events, el' ∈ el :: (rest ++ m.base.fifo.events) :=
    fun el' hel' => List.mem_cons_of_mem el hel'
  have hqueue' : ∀ el' ∈ rest ++ m.base.fifo.events, ∀ q ∈ m.queue, q.source = el'.source →
      q.rank < el'.rank := fun el' hel' => hqueue el' (hrest el' hel')
  have hcount := h.count
  have hkept := h.kept
  rw [hevents] at hkept
  rw [hevents, List.length_cons] at hcount
  have hlength : (m.handled ++ [el]).length = m.handled.length + 1 := List.length_append
  have hmiddle : m.handled ++ el :: rest = m.handled ++ [el] ++ rest := by
    rw [List.append_assoc]
    rfl
  have hheld : m.sources.held = m.base.fifo.events ++
      (el :: rest ++ m.queue ++ (m.thrown ++ m.lost)) := by
    rw [← hevents]
    rfl
  cases o with
  | processed =>
    have hperm : m.sources.held.Perm
        (el :: (m.base.fifo.events ++ (rest ++ m.queue ++ (m.thrown ++ m.lost)))) := by
      rw [hheld]
      exact List.perm_middle
    refine ⟨h.sources.setFlag hperm, ⟨hgrows, fun el' hel' k hk => ?_, hqueue'⟩, ?_, fun hlost => ?_⟩
    · rcases Sources.pushed_setFlag hk with ⟨hsource, rfl⟩ | hk
      · exact hbefore el' hel' hsource.symm
      · exact hprocessed el' (hrest el' hel') k hk
    · show m.taken.length = (m.handled ++ [el]).length + m.lost.length + rest.length
      omega
    · exact (hkept hlost).trans hmiddle
  | queued =>
    have hperm : (m.base.fifo.events ++ (rest ++ (m.queue ++ [el]) ++ (m.thrown ++ m.lost))).Perm
        m.sources.held := by
      rw [hheld]
      refine List.Perm.append_left _ (List.Perm.append_right _ ?_)
      rw [← List.append_assoc]
      exact List.perm_append_singleton el (rest ++ m.queue)
    refine ⟨h.sources.rearrange hperm, ⟨hgrows, fun el' hel' => hprocessed el' (hrest el' hel'),
      fun el' hel' q hq hsource => ?_⟩, ?_, fun hlost => ?_⟩
    · rcases List.mem_append.mp hq with hq | hq
      · exact hqueue' el' hel' q hq hsource
      · obtain rfl := List.mem_singleton.mp hq
        exact hbefore el' hel' hsource
    · show m.taken.length = (m.handled ++ [el]).length + m.lost.length + rest.length
      omega
    · exact (hkept hlost).trans hmiddle
  | throws =>
    have hperm : (m.base.fifo.events ++ ([] ++ m.queue ++ (m.thrown ++ [el] ++ (m.lost ++ rest)))).Perm
        m.sources.held := by
      rw [hheld]
      refine List.Perm.append_left _ ?_
      rw [List.nil_append, List.append_assoc, List.singleton_append, ← List.append_assoc m.queue]
      refine List.perm_middle.trans (List.Perm.cons el ?_)
      rw [List.append_assoc, ← List.append_assoc m.thrown, ← List.append_assoc m.queue]
      refine List.perm_append_comm.trans ?_
      exact List.Perm.of_eq (List.append_assoc rest m.queue (m.thrown ++ m.lost)).symm
    have hfifo : ∀ el' ∈ m.base.fifo.events, el' ∈ rest ++ m.base.fifo.events :=
      fun el' hel' => List.mem_append_right _ hel'
    refine ⟨h.sources.rearrange hperm, ⟨?_, fun el' hel' => hprocessed el' (hrest el' (hfifo el' hel')),
      fun el' hel' => hqueue' el' (hfifo el' hel')⟩, ?_, fun hlost => ?_⟩
    · exact (List.pairwise_append.mp hgrows).2.1
    · show m.taken.length = (m.handled ++ [el]).length + (m.lost ++ rest).length + 0
      have hboth : (m.lost ++ rest).length = m.lost.length + rest.length := List.length_append
      omega
    · have hlost : m.lost ++ rest = [] := hlost
      obtain ⟨hnone, hrest⟩ := List.append_eq_nil_iff.mp hlost
      have htaken := hkept hnone
      rw [hrest] at htaken
      show m.taken = m.handled ++ [el] ++ []
      rw [List.append_nil]
      exact htaken

theorem Inv.update (h : Inv ack m) {k : ℕ} (hk : m.queue[k]? = some el) :
    Inv ack { m with base := Sources.setFlag el m.base, queue := m.queue.eraseIdx k } := by
  obtain ⟨hlt, rfl⟩ := List.getElem?_eq_some_iff.mp hk
  have hmem : m.queue[k] ∈ m.queue := List.getElem_mem hlt
  have hperm : m.sources.held.Perm (m.queue[k] ::
      (m.base.fifo.events ++ (m.events ++ m.queue.eraseIdx k ++ (m.thrown ++ m.lost)))) := by
    have hqueue : m.queue.Perm (m.queue[k] :: m.queue.eraseIdx k) :=
      (List.getElem_cons_eraseIdx_perm hlt).symm
    refine (List.Perm.append_left _ (List.Perm.append_right _
      (List.Perm.append_left m.events hqueue))).trans ?_
    refine (List.Perm.append_left _ (List.Perm.append_right _ List.perm_middle)).trans ?_
    exact List.perm_middle
  refine ⟨h.sources.setFlag hperm, ⟨h.ordered.grows, fun el hel j hj => ?_, fun el hel q hq =>
    h.ordered.queue el hel q (List.mem_of_mem_eraseIdx hq)⟩, h.count, h.kept⟩
  rcases Sources.pushed_setFlag hj with ⟨hsource, rfl⟩ | hj
  · exact h.ordered.queue el hel _ hmem hsource.symm
  · exact h.ordered.processed el hel j hj

theorem Inv.finish_actions (h : Inv ack m) : Inv ack m.finish_actions :=
  ⟨(h.sources.clean 0).clean 1, ⟨h.ordered.grows, h.ordered.processed, h.ordered.queue⟩, h.count,
    h.kept⟩

theorem Inv.get_acks (h : Inv ack m) (c : Fin 2) : Inv ack { m with base := m.base.get_acks c } :=
  ⟨h.sources.get_acks c, ⟨h.ordered.grows, h.ordered.processed, h.ordered.queue⟩, h.count, h.kept⟩

variable {m' : Manager T}

/-- What a step does. -/
theorem step_cases {outcome : Element T 2 → Outcome} {a : Act T}
    (h : m.step outcome a = some m') :
    (∃ c e address base, a = .send_event c e address ∧
      m.base.step (.push c e address) = some base ∧ m' = { m with base := base }) ∨
    (a = .first_events ∧ m.events = [] ∧ m' = { m with
      base := { m.base with fifo := { m.base.fifo with events := [] } }
      events := m.base.fifo.events
      taken := m.taken ++ m.base.fifo.events }) ∨
    (∃ el rest, a = .handle ∧ m.events = el :: rest ∧ m' = m.handleEvent (outcome el) el rest) ∨
    (∃ k el, a = .update k ∧ m.queue[k]? = some el ∧
      m' = { m with base := Sources.setFlag el m.base, queue := m.queue.eraseIdx k }) ∨
    (a = .finish_actions ∧ m' = m.finish_actions) ∨
    ∃ c, a = .get_acks c ∧ m' = { m with base := m.base.get_acks c } := by
  cases a with
  | send_event c e address =>
    obtain ⟨base, hbase, rfl⟩ := Option.map_eq_some_iff.mp h
    exact .inl ⟨c, e, address, base, rfl, hbase, rfl⟩
  | first_events =>
    simp only [step] at h
    split at h
    · rename_i hempty
      obtain rfl := Option.some.inj h
      exact .inr (.inl ⟨rfl, List.isEmpty_iff.mp hempty, rfl⟩)
    · cases h
  | handle =>
    simp only [step] at h
    split at h
    · cases h
    · rename_i el rest hevents
      obtain rfl := Option.some.inj h
      exact .inr (.inr (.inl ⟨el, rest, rfl, hevents, rfl⟩))
  | update k =>
    obtain ⟨el, hk, rfl⟩ := Option.map_eq_some_iff.mp h
    exact .inr (.inr (.inr (.inl ⟨k, el, rfl, hk, rfl⟩)))
  | finish_actions =>
    simp only [step] at h
    split at h
    · obtain rfl := Option.some.inj h
      exact .inr (.inr (.inr (.inr (.inl ⟨rfl, rfl⟩))))
    · cases h
  | get_acks c =>
    obtain rfl := Option.some.inj h
    exact .inr (.inr (.inr (.inr (.inr ⟨c, rfl, rfl⟩))))

theorem Inv.step (h : Inv ack m) {outcome : Element T 2 → Outcome} {a : Act T}
    (hstep : m.step outcome a = some m') : Inv ack m' := by
  rcases step_cases hstep with ⟨c, e, address, base, -, hbase, rfl⟩ | ⟨-, hempty, rfl⟩ |
    ⟨el, rest, -, hevents, rfl⟩ | ⟨k, el, -, hk, rfl⟩ | ⟨-, rfl⟩ | ⟨c, -, rfl⟩
  · exact h.send_event hbase
  · exact h.first_events hempty
  · exact h.handle hevents _
  · exact h.update hk
  · exact h.finish_actions
  · exact h.get_acks c

/-! ## Runs in which no throw does harm -/

/-- A throw is harmless at a step: nothing else is in hand, and no event of its stream follows. -/
def Harmless (outcome : Element T 2 → Outcome) (m : Manager T) : Act T → Prop
  | .handle => ∀ el rest, m.events = el :: rest →
      (outcome el = .throws → rest = []) ∧
        (outcome el ≠ .throws → ∀ t ∈ m.thrown, t.source ≠ el.source)
  | _ => True

/-- What holds in runs whose steps are all so. -/
structure Intact (m : Manager T) : Prop where
  lost : m.lost = []
  processed : ∀ t ∈ m.thrown, ∀ k, (m.base.pushed t.source)[k]? = some true → k < t.rank
  queue : ∀ t ∈ m.thrown, ∀ q ∈ m.queue, q.source = t.source → q.rank < t.rank

theorem Intact.step (hm : Intact m) (h : Inv ack m) {outcome : Element T 2 → Outcome} {a : Act T}
    (hharmless : Harmless outcome m a) (hstep : m.step outcome a = some m') :
    Intact m' := by
  rcases step_cases hstep with ⟨c, e, address, base, -, hbase, rfl⟩ | ⟨-, hempty, rfl⟩ |
    ⟨el, rest, rfl, hevents, rfl⟩ | ⟨k, el, -, hk, rfl⟩ | ⟨-, rfl⟩ | ⟨c, -, rfl⟩
  · exact ⟨hm.lost, fun t ht k hk => hm.processed t ht k (pushed_of_push hbase hk), hm.queue⟩
  · exact ⟨hm.lost, hm.processed, hm.queue⟩
  · obtain ⟨hlast, hother⟩ := hharmless el rest hevents
    have hel : el ∈ m.events ++ m.base.fifo.events := by
      rw [hevents]
      exact List.mem_cons_self
    cases ho : outcome el with
    | processed =>
      have hother := hother (by rw [ho]; exact nofun)
      refine ⟨hm.lost, fun t ht k hk => ?_, hm.queue⟩
      rcases Sources.pushed_setFlag hk with ⟨hsource, -⟩ | hk
      · exact absurd hsource (hother t ht)
      · exact hm.processed t ht k hk
    | queued =>
      have hother := hother (by rw [ho]; exact nofun)
      refine ⟨hm.lost, hm.processed, fun t ht q hq hsource => ?_⟩
      rcases List.mem_append.mp hq with hq | hq
      · exact hm.queue t ht q hq hsource
      · obtain rfl := List.mem_singleton.mp hq
        exact absurd hsource.symm (hother t ht)
    | throws =>
      refine ⟨?_, fun t ht k hk => ?_, fun t ht q hq hsource => ?_⟩
      · show m.lost ++ rest = []
        rw [hm.lost, hlast ho]
        rfl
      · rcases List.mem_append.mp ht with ht | ht
        · exact hm.processed t ht k hk
        · obtain rfl := List.mem_singleton.mp ht
          exact h.ordered.processed t hel k hk
      · rcases List.mem_append.mp ht with ht | ht
        · exact hm.queue t ht q hq hsource
        · obtain rfl := List.mem_singleton.mp ht
          exact h.ordered.queue t hel q hq hsource
  · have hmem : el ∈ m.queue := List.mem_of_getElem? hk
    refine ⟨hm.lost, fun t ht j hj => ?_, fun t ht q hq =>
      hm.queue t ht q (List.mem_of_mem_eraseIdx hq)⟩
    rcases Sources.pushed_setFlag hj with ⟨hsource, rfl⟩ | hj
    · exact hm.queue t ht el hmem hsource.symm
    · exact hm.processed t ht j hj
  · exact ⟨hm.lost, hm.processed, hm.queue⟩
  · exact ⟨hm.lost, hm.processed, hm.queue⟩

end Steps

/-! ## Surviving a handler that throws -/

/-- What the loop is to keep, whatever handlers do. -/
structure Survives (m : Manager T) : Prop where
  /-- All that was taken is passed to its handler, once and in order, or still to be. -/
  passed : m.taken = m.handled ++ m.events
  /--
  An event that is processed is acknowledged at the end of the turn, if all before it of its
  stream are processed or threw.
  -/
  acked : ∀ i k, (m.base.pushed i)[k]? = some true →
    (∀ j, j < k → (m.base.pushed i)[j]? = some true ∨ ∃ t ∈ m.thrown, t.source = i ∧ t.rank = j) →
    k < m.finish_actions.base.removed i

/-- After `clean`, what is at the front of a timeline is not processed. -/
theorem not_processed_removed {ack : Fin 2 → ℤ} {w : Sources T 2} (h : Sources.Inv ack w)
    (c : Fin 2) : ((w.clean c).pushed c)[(w.clean c).removed c]? ≠ some true := by
  intro htrue
  have hinv := h.clean c
  rw [hinv.pushed_eq (Nat.le_refl _), Nat.sub_self] at htrue
  obtain ⟨s, hs, hsnd⟩ := Option.map_eq_some_iff.mp htrue
  have hs : (Function.update w.fifo.timeline c ((w.fifo.timeline c).dropWhile Prod.snd) c)[0]? =
    some s := hs
  rw [Function.update_self, ← List.head?_eq_getElem?] at hs
  have hnot := List.head?_dropWhile_not Prod.snd (w.fifo.timeline c)
  rw [hs] at hnot
  have hfalse : s.2 = false := hnot
  rw [hsnd] at hfalse
  cases hfalse

theorem Intact.run {ack : Fin 2 → ℤ} {m : Manager T} (hm : Intact m) (h : Inv ack m) :
    Survives m := by
  refine ⟨h.kept hm.lost, fun i k hk hbefore => ?_⟩
  -- none of those before it threw
  have hall : ∀ j, j ≤ k → (m.base.pushed i)[j]? = some true := by
    intro j hj
    rcases Nat.lt_or_eq_of_le hj with hj | rfl
    · rcases hbefore j hj with htrue | ⟨t, ht, rfl, rfl⟩
      · exact htrue
      · have hlt := hm.processed t ht k hk
        omega
    · exact hk
  by_contra hge
  have hfront : (m.base.pushed i)[m.finish_actions.base.removed i]? ≠ some true := by
    have h₀ := h.sources
    fin_cases i
    · have hnot := not_processed_removed h₀ 0
      exact hnot
    · exact not_processed_removed (h₀.clean 0) 1
  exact hfront (hall _ (by omega))

variable (outcome : Element T 2 → Outcome) in
/-- A run in which no throw does harm. -/
def HarmlessRun : List (Act T) → Manager T → Prop
  | [], _ => True
  | a :: acts, m => Harmless outcome m a ∧ ∀ m', m.step outcome a = some m' → HarmlessRun acts m'

theorem run_inv {ack : Fin 2 → ℤ} {outcome : Element T 2 → Outcome} {acts : List (Act T)}
    {m m' : Manager T} (h : Inv ack m) (hrun : run outcome acts m = some m') :
    Inv ack m' ∧ (Intact m → HarmlessRun outcome acts m → Intact m') := by
  induction acts generalizing m with
  | nil =>
    obtain rfl := Option.some.inj hrun
    exact ⟨h, fun hm _ => hm⟩
  | cons a acts ih =>
    obtain ⟨m₁, hstep, hrun⟩ := Option.bind_eq_some_iff.mp hrun
    obtain ⟨hinv, hintact⟩ := ih (h.step hstep) hrun
    exact ⟨hinv, fun hm hharmless => hintact (hm.step h hharmless.1 hstep) (hharmless.2 m₁ hstep)⟩

/--
**The loop survives a throw that does no harm.** Any other does: what is in hand with an event
that throws is lost, and nothing of its stream is acknowledged from that event on.
-/
theorem survives (ack : Fin 2 → ℤ) (outcome : Element T 2 → Outcome) (acts : List (Act T))
    (m : Manager T) (h : run outcome acts (start ack) = some m) :
    (HarmlessRun outcome acts (start ack) → Survives m) ∧
      (m.taken = m.handled ++ m.events ↔ m.lost = []) ∧
      ∀ t ∈ m.thrown, m.base.removed t.source ≤ t.rank := by
  obtain ⟨hinv, hintact⟩ := run_inv (inv_start ack) h
  refine ⟨fun hharmless => (hintact ⟨rfl, fun _ ht => absurd ht List.not_mem_nil,
    fun _ ht => absurd ht List.not_mem_nil⟩ hharmless).run hinv, ⟨fun heq => ?_, hinv.kept⟩,
    fun t ht => ?_⟩
  · have hcount := hinv.count
    rw [heq, List.length_append] at hcount
    exact List.eq_nil_of_length_eq_zero (by omega)
  · -- the boolean of an event that threw is never set
    have hheld : t ∈ m.sources.held := List.mem_append_right _ (List.mem_append_right _
      (List.mem_append_left _ ht))
    exact (hinv.sources.held t hheld).1

/-- Two events of a stream, in one batch. -/
def twoEvents : List (Act Char) :=
  [.send_event sql 'a' 10, .send_event sql 'b' 11, .first_events, .handle]

/-- The handler of one event of each stream throws. -/
def throwsAt (k : ℕ) : Element Char 2 → Outcome := fun el => if el.rank = k then .throws else .processed

theorem harmlessRun_twoEvents :
    HarmlessRun (throwsAt 1) (twoEvents ++ [.handle]) (start fun _ => 0) := by
  refine ⟨trivial, fun m₁ h₁ => ?_⟩
  obtain rfl := Option.some.inj h₁
  refine ⟨trivial, fun m₂ h₂ => ?_⟩
  obtain rfl := Option.some.inj h₂
  refine ⟨trivial, fun m₃ h₃ => ?_⟩
  obtain rfl := Option.some.inj h₃
  refine ⟨fun el rest hevents => ?_, fun m₄ h₄ => ?_⟩
  · obtain ⟨rfl, -⟩ := List.cons.inj hevents
    exact ⟨fun ho => absurd ho (by decide), fun _ t ht => absurd ht List.not_mem_nil⟩
  · obtain rfl := Option.some.inj h₄
    refine ⟨fun el rest hevents => ?_, fun _ _ => trivial⟩
    obtain ⟨rfl, rfl⟩ := List.cons.inj hevents
    exact ⟨fun _ => rfl, fun ho => absurd rfl ho⟩

/-- It is the second that throws, and both were handled. -/
theorem survives_twoEvents :
    ∃ m, run (throwsAt 1) (twoEvents ++ [.handle]) (start fun _ => 0) = some m ∧ Survives m ∧
      m.thrown.length = 1 :=
  ⟨_, rfl, (survives (fun _ => 0) (throwsAt 1) (twoEvents ++ [.handle]) _ rfl).1
    harmlessRun_twoEvents, rfl⟩

theorem not_survives : ¬∀ (outcome : Element Char 2 → Outcome) (acts : List (Act Char))
    (m : Manager Char), run outcome acts (start fun _ => 0) = some m → Survives m := by
  intro h
  have hpassed := (h (throwsAt 0) twoEvents _ rfl).passed
  exact absurd (congrArg List.length hpassed) (by decide)

end Manager

end CentreonBroker.Storage
