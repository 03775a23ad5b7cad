import CentreonBroker.Storage.MainLoop

/-!
# What is written when an event is acknowledged

The boolean of an event is set once its statements are run, or its row is sent from a queue. The
handler of the performance data sets it before: its rows wait in two queues that may not be empty
when the loop commits.
-/

namespace CentreonBroker.Storage.MainLoop

variable {T R : Type} {cfg : LoopConfig} {handling : Element T 2 → Handling R}
variable {m m' m₀ : MainLoop T R} {M : Manager T} {t : Turn}

/-! ## The loop as a run of the manager -/

/-- The same loop, without its rows. -/
structure Matches (M : Manager T) (m : MainLoop T R) : Prop where
  base : M.base = m.base
  events : M.events = m.events
  queue : M.queue.Perm (m.cv_queue.map Prod.fst ++ m.log_queue.map Prod.fst)
  taken : M.taken = m.taken
  handled : M.handled = m.handled
  thrown : M.thrown = m.thrown
  lost : M.lost = m.lost

variable (handling) in
/-- A manager goes on as the loop does. -/
def Follows (M : Manager T) (m' : MainLoop T R) : Prop :=
  ∃ acts M', M.run (fun el => (handling el).outcome) acts = some M' ∧ Matches M' m'

theorem Matches.follows (h : Matches M m) : Follows handling M m := ⟨[], M, rfl, h⟩

theorem manager_run_append {outcome : Element T 2 → Outcome} {pre post : List (Act T)} :
    M.run outcome (pre ++ post) = (M.run outcome pre).bind fun M => M.run outcome post := by
  induction pre generalizing M with
  | nil => rfl
  | cons a pre ih =>
    show (M.step outcome a).bind _ = ((M.step outcome a).bind _).bind _
    rw [Option.bind_assoc]
    exact congrArg _ (funext fun M => ih)

theorem Follows.trans (h : Follows handling M m)
    (h' : ∀ M', Matches M' m → Follows handling M' m') : Follows handling M m' := by
  obtain ⟨acts, M₁, hrun, hmatches⟩ := h
  obtain ⟨acts', M₂, hrun', hmatches'⟩ := h' M₁ hmatches
  refine ⟨acts ++ acts', M₂, ?_, hmatches'⟩
  rw [manager_run_append, hrun]
  exact hrun'

/-- The events of a queue are written one after the other. -/
theorem run_updates {queue : List (Element T 2 × R)} {others : List (Element T 2)}
    (hqueue : M.queue.Perm (queue.map Prod.fst ++ others)) (outcome : Element T 2 → Outcome) :
    ∃ acts M', M.run outcome acts = some M' ∧ M'.base = setFlags queue M.base ∧
      M'.queue.Perm others ∧ M'.events = M.events ∧ M'.taken = M.taken ∧
        M'.handled = M.handled ∧ M'.thrown = M.thrown ∧ M'.lost = M.lost := by
  induction queue generalizing M with
  | nil => exact ⟨[], M, rfl, rfl, hqueue, rfl, rfl, rfl, rfl, rfl⟩
  | cons p queue ih =>
    have hmem : p.1 ∈ M.queue := hqueue.mem_iff.mpr List.mem_cons_self
    obtain ⟨k, hlt, hk⟩ := List.getElem_of_mem hmem
    have hstep : M.step outcome (.update k) = some { M with
        base := Sources.setFlag p.1 M.base, queue := M.queue.eraseIdx k } := by
      show (M.queue[k]?).map _ = _
      rw [List.getElem?_eq_getElem hlt, hk]
      rfl
    have hrest : (M.queue.eraseIdx k).Perm (queue.map Prod.fst ++ others) := by
      have hperm := (List.getElem_cons_eraseIdx_perm hlt).trans hqueue
      rw [hk, List.map_cons, List.cons_append] at hperm
      exact hperm.cons_inv
    obtain ⟨acts, M', hrun, hspec⟩ :=
      @ih { M with base := Sources.setFlag p.1 M.base, queue := M.queue.eraseIdx k } hrest
    exact ⟨.update k :: acts, M', Option.bind_eq_some_iff.mpr ⟨_, hstep, hrun⟩, hspec⟩

theorem follows_update_customvariables (h : Matches M m) :
    Follows handling M m.update_customvariables := by
  obtain ⟨acts, M', hrun, hbase, hqueue, hevents, htaken, hhandled, hthrown, hlost⟩ :=
    run_updates h.queue fun el => (handling el).outcome
  exact ⟨acts, M', hrun, hbase.trans (congrArg _ h.base), hevents.trans h.events, hqueue,
    htaken.trans h.taken, hhandled.trans h.handled, hthrown.trans h.thrown, hlost.trans h.lost⟩

theorem follows_insert_logs (h : Matches M m) : Follows handling M m.insert_logs := by
  obtain ⟨acts, M', hrun, hbase, hqueue, hevents, htaken, hhandled, hthrown, hlost⟩ :=
    run_updates (h.queue.trans List.perm_append_comm) fun el => (handling el).outcome
  refine ⟨acts, M', hrun, hbase.trans (congrArg _ h.base), hevents.trans h.events, ?_,
    htaken.trans h.taken, hhandled.trans h.handled, hthrown.trans h.thrown, hlost.trans h.lost⟩
  show M'.queue.Perm (m.cv_queue.map Prod.fst ++ [])
  rw [List.append_nil]
  exact hqueue

/-- The performance data are not events that the manager has in hand. -/
theorem Matches.insert_perfdatas (h : Matches M m) : Matches M m.insert_perfdatas :=
  ⟨h.base, h.events, h.queue, h.taken, h.handled, h.thrown, h.lost⟩

theorem Matches.update_metrics (h : Matches M m) : Matches M m.update_metrics :=
  ⟨h.base, h.events, h.queue, h.taken, h.handled, h.thrown, h.lost⟩

/-- The variables of the turn, the clock and the flags are not of the manager. -/
theorem Matches.with (h : Matches M m) (turn : Option Turn) (now : ℕ) (exit broken : Bool) :
    Matches M { m with turn := turn, now := now, exit := exit, broken := broken } :=
  ⟨h.base, h.events, h.queue, h.taken, h.handled, h.thrown, h.lost⟩

theorem follows_begin (h : Matches M m) : Follows handling M m.begin := by
  have hcv : Follows handling M m.insert_perfdatas.update_metrics.update_customvariables :=
    follows_update_customvariables h.insert_perfdatas.update_metrics
  refine (hcv.trans fun M' h' => follows_insert_logs h').trans fun M' h' => ?_
  exact (h'.with _ _ _ _).follows

theorem follows_counted (h : Matches M m) : Follows handling M (counted cfg t m) := by
  have hflush : Follows handling M (flushLong cfg { t with count := t.count + 1 } m).2 :=
    @flushLong_keeps T R m cfg (fun _ m' => Follows handling M m') { t with count := t.count + 1 }
      (fun _ _ _ h => h.trans fun _ h' => h'.insert_perfdatas.follows)
      (fun _ _ _ h => h.trans fun _ h' => h'.update_metrics.follows)
      (fun _ _ _ h => h.trans fun _ h' => follows_update_customvariables h')
      (fun _ _ _ h => h.trans fun _ h' => follows_insert_logs h') h.follows
  exact hflush.trans fun M' h' => (h'.with _ _ _ _).follows

/-- The event that is handled is in one queue at most. -/
theorem follows_handle {el : Element T 2} {rest : List (Element T 2)} {time : ℕ}
    (h : Matches M m) (hevents : m.events = el :: rest) :
    Follows handling M (m.handle cfg (handling el) el rest time t) := by
  have hstep : M.step (fun el => (handling el).outcome) .handle =
      some (M.handleEvent (handling el).outcome el rest) := by
    simp only [Manager.step]
    rw [h.events, hevents]
  have hhandle : ∀ m', Matches (M.handleEvent (handling el).outcome el rest) m' →
      Follows handling M m' := fun m' h' =>
    ⟨[.handle], _, Option.bind_eq_some_iff.mpr ⟨_, hstep, rfl⟩, h'⟩
  have hhandled : M.handled ++ [el] = m.handled ++ [el] := congrArg (· ++ [el]) h.handled
  unfold handle
  cases hel : handling el with
  | direct statements =>
    rw [hel] at hhandle
    refine (hhandle { m.handleEvent (.direct statements) el with
      events := rest, now := m.now + time } ?_).trans fun M' h' => follows_counted h'
    refine ⟨congrArg (Sources.setFlag el) h.base, rfl, ?_, h.taken, hhandled, h.thrown, h.lost⟩
    show M.queue.Perm ((m.cv_queue ++ []).map Prod.fst ++ (m.log_queue ++ []).map Prod.fst)
    rw [List.append_nil, List.append_nil]
    exact h.queue
  | custom_variable row =>
    rw [hel] at hhandle
    refine (hhandle { m.handleEvent (.custom_variable row) el with
      events := rest, now := m.now + time } ?_).trans fun M' h' => follows_counted h'
    refine ⟨h.base, rfl, ?_, h.taken, hhandled, h.thrown, h.lost⟩
    show (M.queue ++ [el]).Perm
      ((m.cv_queue ++ [(el, row)]).map Prod.fst ++ (m.log_queue ++ []).map Prod.fst)
    rw [List.append_nil, List.map_append, List.append_assoc]
    refine (h.queue.append_right [el]).trans ?_
    rw [List.append_assoc]
    exact List.perm_append_comm.append_left _
  | log row =>
    rw [hel] at hhandle
    refine (hhandle { m.handleEvent (.log row) el with
      events := rest, now := m.now + time } ?_).trans fun M' h' => follows_counted h'
    refine ⟨h.base, rfl, ?_, h.taken, hhandled, h.thrown, h.lost⟩
    show (M.queue ++ [el]).Perm
      ((m.cv_queue ++ []).map Prod.fst ++ (m.log_queue ++ [(el, row)]).map Prod.fst)
    rw [List.append_nil, List.map_append, ← List.append_assoc]
    exact h.queue.append_right [el]
  | service_status statements metrics perfdata =>
    rw [hel] at hhandle
    refine (hhandle { m.handleEvent (.service_status statements metrics perfdata) el with
      events := rest, now := m.now + time } ?_).trans fun M' h' => follows_counted h'
    refine ⟨congrArg (Sources.setFlag el) h.base, rfl, ?_, h.taken, hhandled, h.thrown, h.lost⟩
    show M.queue.Perm ((m.cv_queue ++ []).map Prod.fst ++ (m.log_queue ++ []).map Prod.fst)
    rw [List.append_nil, List.append_nil]
    exact h.queue
  | throws statements metrics perfdata gone_away =>
    rw [hel] at hhandle
    refine hhandle _ ⟨h.base, rfl, ?_, h.taken, hhandled, congrArg (· ++ [el]) h.thrown,
      congrArg (· ++ rest) h.lost⟩
    show M.queue.Perm ((m.cv_queue ++ []).map Prod.fst ++ (m.log_queue ++ []).map Prod.fst)
    rw [List.append_nil, List.append_nil]
    exact h.queue

/-- The manager can do what the loop does. -/
theorem follows_step {a : Step T} (h : Matches M m) (hstep : m.step cfg handling a = some m') :
    Follows handling M m' := by
  have hone : ∀ (a : Act T) (M' : Manager T),
      M.step (fun el => (handling el).outcome) a = some M' → Matches M' m' →
        Follows handling M m' := fun a M' hM h' =>
    ⟨[a], M', Option.bind_eq_some_iff.mpr ⟨M', hM, rfl⟩, h'⟩
  rcases step_cases hstep with ⟨c, e, address, base, -, hbase, rfl⟩ | ⟨c, -, rfl⟩ | ⟨-, rfl⟩ |
    ⟨-, -, rfl⟩ | ⟨t, -, hturn, hevents, hwaits, hgoes, rfl⟩ | ⟨t, -, hturn, hwaits, rfl⟩ |
    ⟨time, t, el, rest, -, hturn, hevents, rfl⟩ | ⟨t, -, hturn, hevents, -, -, rfl⟩
  · refine hone (.send_event c e address) { M with base := base } ?_
      ⟨rfl, h.events, h.queue, h.taken, h.handled, h.thrown, h.lost⟩
    show (M.base.step _).map _ = _
    rw [h.base, hbase]
    rfl
  · refine hone (.get_acks c) { M with base := M.base.get_acks c } rfl
      ⟨congrArg (Sources.get_acks c) h.base, h.events, h.queue, h.taken, h.handled, h.thrown,
        h.lost⟩
  · exact (h.with _ _ _ _).follows
  · exact follows_begin h
  · refine hone .first_events { M with
      base := { M.base with fifo := { M.base.fifo with events := [] } }
      events := M.base.fifo.events, taken := M.taken ++ M.base.fifo.events } ?_ ?_
    · simp only [Manager.step]
      rw [if_pos (List.isEmpty_iff.mpr (h.events.trans hevents))]
      rfl
    · rw [h.base, h.taken]
      exact ⟨rfl, rfl, h.queue, rfl, h.handled, h.thrown, h.lost⟩
  · unfold wait
    split
    · exact (h.with _ _ _ _).follows
    · exact (h.with _ _ _ _).follows
  · exact follows_handle h hevents
  · refine hone .finish_actions M.finish_actions ?_ ?_
    · simp only [Manager.step]
      rw [if_pos (List.isEmpty_iff.mpr (h.events.trans hevents))]
    · refine ⟨?_, h.events, h.queue, h.taken, h.handled, h.thrown, h.lost⟩
      show (M.base.clean sql).clean storage = _
      rw [h.base]
      rfl

/-! ## The rows -/

/-- The rows of the performance data that wait. -/
def waiting (m : MainLoop T R) : List (Element T 2 × Write R) :=
  m.perfdata_queue.map (fun p => (p.1, .perfdata p.2)) ++
    m.metrics.map fun p => (p.1, .metric p.2.1 p.2.2)

/-- The boolean of an event is set. -/
def Flagged (m : MainLoop T R) (el : Element T 2) : Prop :=
  (m.base.pushed el.source)[el.rank]? = some true

variable (handling) in
/-- All that is to be written for the events whose boolean is set was sent. -/
def Settled (m : MainLoop T R) : Prop :=
  ∀ el ∈ m.handled, m.Flagged el → ∀ w ∈ (handling el).writes, (el, w) ∈ m.sent

variable (handling) in
/-- The same of the events that were counted by `clean`. -/
def Counted (m : MainLoop T R) : Prop :=
  ∀ el ∈ m.handled, el.rank < m.base.removed el.source →
    ∀ w ∈ (handling el).writes, (el, w) ∈ m.sent

/-- Two events of a stream, in the order in which they were pushed. -/
def Before (a b : Element T 2) : Prop := a.source = b.source → a.rank < b.rank

variable (handling) in
/-- What is written for the events that were handled. -/
structure WriteInv (m : MainLoop T R) : Prop where
  sorted : (m.handled ++ (m.events ++ m.base.fifo.events)).Pairwise Before
  fresh : ∀ el ∈ m.handled ++ (m.events ++ m.base.fifo.events),
    el.rank < (m.base.pushed el.source).length
  cv : ∀ p ∈ m.cv_queue, p.1 ∈ m.handled ∧ handling p.1 = .custom_variable p.2
  log : ∀ p ∈ m.log_queue, p.1 ∈ m.handled ∧ handling p.1 = .log p.2
  written : ∀ el ∈ m.handled, m.Flagged el → ∀ w ∈ (handling el).writes,
    (el, w) ∈ m.sent ∨ (el, w) ∈ m.waiting
  counted : Counted handling m

theorem writeInv_start (ack : Fin 2 → ℤ) (now : ℕ) :
    WriteInv handling (start ack now : MainLoop T R) where
  sorted := List.Pairwise.nil
  fresh _ h := by cases h
  cv _ h := by cases h
  log _ h := by cases h
  written _ h := by cases h
  counted _ h := by cases h

theorem eq_of_before {l : List (Element T 2)} (hl : l.Pairwise Before) {a b : Element T 2}
    (ha : a ∈ l) (hb : b ∈ l) (hsource : a.source = b.source) (hrank : a.rank = b.rank) :
    a = b := by
  induction l with
  | nil => cases ha
  | cons x l ih =>
    obtain ⟨hx, hl⟩ := List.pairwise_cons.mp hl
    rcases List.mem_cons.mp ha with rfl | ha' <;> rcases List.mem_cons.mp hb with rfl | hb'
    · rfl
    · exact absurd (hx b hb' hsource) (hrank ▸ lt_irrefl _)
    · exact absurd (hx a ha' hsource.symm) (hrank ▸ lt_irrefl _)
    · exact ih hl ha' hb'

theorem WriteInv.unique (h : WriteInv handling m) {a b : Element T 2} (ha : a ∈ m.handled)
    (hb : b ∈ m.handled) (hsource : a.source = b.source) (hrank : a.rank = b.rank) : a = b :=
  eq_of_before (List.pairwise_append.mp h.sorted).1 ha hb hsource hrank

/-- A queue sets the booleans of its own events. -/
theorem pushed_setFlags {queue : List (Element T 2 × R)} {base : Sources T 2} {i : Fin 2} {k : ℕ}
    (hk : ((setFlags queue base).pushed i)[k]? = some true) :
    (∃ p ∈ queue, i = p.1.source ∧ k = p.1.rank) ∨ (base.pushed i)[k]? = some true := by
  induction queue generalizing base with
  | nil => exact .inr hk
  | cons p queue ih =>
    rcases ih hk with ⟨p', hp', hkey⟩ | hk
    · exact .inl ⟨p', List.mem_cons_of_mem _ hp', hkey⟩
    · rcases Sources.pushed_setFlag hk with hkey | hk
      · exact .inl ⟨p, List.mem_cons_self, hkey⟩
      · exact .inr hk

theorem length_pushed_setFlag (el : Element T 2) (base : Sources T 2) (i : Fin 2) :
    ((Sources.setFlag el base).pushed i).length = (base.pushed i).length := by
  show (Function.update base.pushed el.source _ i).length = _
  by_cases hi : i = el.source
  · rw [hi, Function.update_self, List.length_set]
  · rw [Function.update_of_ne hi]

/-- But for the booleans, the sources are as they were. -/
theorem setFlags_spec (queue : List (Element T 2 × R)) (base : Sources T 2) :
    (setFlags queue base).fifo.events = base.fifo.events ∧
      (setFlags queue base).removed = base.removed ∧
        ∀ i, ((setFlags queue base).pushed i).length = (base.pushed i).length := by
  induction queue generalizing base with
  | nil => exact ⟨rfl, rfl, fun i => rfl⟩
  | cons p queue ih =>
    obtain ⟨hevents, hremoved, hlength⟩ := ih (Sources.setFlag p.1 base)
    exact ⟨hevents, hremoved, fun i => (hlength i).trans (length_pushed_setFlag p.1 base i)⟩

theorem WriteInv.insert_perfdatas (h : WriteInv handling m) :
    WriteInv handling m.insert_perfdatas :=
  { h with
    written := fun el hel hflag w hw => by
      rcases h.written el hel hflag w hw with hsent | hwaits
      · exact .inl (List.mem_append_left _ hsent)
      · rcases List.mem_append.mp hwaits with hperfdata | hmetric
        · exact .inl (List.mem_append_right _ hperfdata)
        · exact .inr hmetric
    counted := fun el hel hlt w hw => List.mem_append_left _ (h.counted el hel hlt w hw) }

theorem WriteInv.update_metrics (h : WriteInv handling m) :
    WriteInv handling m.update_metrics :=
  { h with
    written := fun el hel hflag w hw => by
      rcases h.written el hel hflag w hw with hsent | hwaits
      · exact .inl (List.mem_append_left _ hsent)
      · rcases List.mem_append.mp hwaits with hperfdata | hmetric
        · exact .inr (List.mem_append_left _ hperfdata)
        · exact .inl (List.mem_append_right _ hmetric)
    counted := fun el hel hlt w hw => List.mem_append_left _ (h.counted el hel hlt w hw) }

/-- The rows of a queue are sent, and the booleans of its events are set. -/
theorem WriteInv.empty (h : WriteInv handling m) {row : R → Write R}
    {queue cv_queue log_queue : List (Element T 2 × R)}
    (hqueue : ∀ p ∈ queue, p.1 ∈ m.handled ∧ (handling p.1).writes = [row p.2])
    (hcv : ∀ p ∈ cv_queue, p ∈ m.cv_queue) (hlog : ∀ p ∈ log_queue, p ∈ m.log_queue) :
    WriteInv handling { m with
      sent := m.sent ++ queue.map fun p => (p.1, row p.2)
      base := setFlags queue m.base
      cv_queue := cv_queue
      log_queue := log_queue } := by
  obtain ⟨hevents, hremoved, hlength⟩ := setFlags_spec queue m.base
  refine ⟨?_, fun el hel => ?_, fun p hp => h.cv p (hcv p hp), fun p hp => h.log p (hlog p hp),
    fun el hel hflag w hw => ?_, fun el hel hlt w hw => ?_⟩
  · show (m.handled ++ (m.events ++ (setFlags queue m.base).fifo.events)).Pairwise _
    rw [hevents]
    exact h.sorted
  · show el.rank < ((setFlags queue m.base).pushed el.source).length
    rw [hlength]
    refine h.fresh el ?_
    rw [← hevents]
    exact hel
  · rcases pushed_setFlags hflag with ⟨p, hp, hsource, hrank⟩ | hflag
    · obtain ⟨hp', hrow⟩ := hqueue p hp
      rw [h.unique hel hp' hsource hrank] at hw ⊢
      rw [hrow] at hw
      rw [List.mem_singleton.mp hw]
      exact .inl (List.mem_append_right _ (List.mem_map_of_mem hp))
    · exact (h.written el hel hflag w hw).imp_left (List.mem_append_left _)
  · refine List.mem_append_left _ (h.counted el hel ?_ w hw)
    rw [← hremoved]
    exact hlt

theorem WriteInv.update_customvariables (h : WriteInv handling m) :
    WriteInv handling m.update_customvariables := by
  refine h.empty (fun p hp => ?_) (fun p hp => by cases hp) fun p hp => hp
  obtain ⟨hhandled, hrow⟩ := h.cv p hp
  exact ⟨hhandled, by rw [hrow]; rfl⟩

theorem WriteInv.insert_logs (h : WriteInv handling m) : WriteInv handling m.insert_logs := by
  refine h.empty (fun p hp => ?_) (fun p hp => hp) fun p hp => by cases hp
  obtain ⟨hhandled, hrow⟩ := h.log p hp
  exact ⟨hhandled, by rw [hrow]; rfl⟩

/-- The variables of the turn, the clock and the flags do not matter. -/
theorem WriteInv.with (h : WriteInv handling m) (turn : Option Turn) (now : ℕ)
    (exit broken : Bool) :
    WriteInv handling { m with turn := turn, now := now, exit := exit, broken := broken } :=
  ⟨h.sorted, h.fresh, h.cv, h.log, h.written, h.counted⟩

theorem WriteInv.counted' (h : WriteInv handling m) : WriteInv handling (MainLoop.counted cfg t m) :=
  (@flushLong_keeps T R m cfg (fun _ m' => WriteInv handling m') { t with count := t.count + 1 }
    (fun _ _ _ h => h.insert_perfdatas) (fun _ _ _ h => h.update_metrics)
    (fun _ _ _ h => h.update_customvariables) (fun _ _ _ h => h.insert_logs) h).with _ _ _ _

theorem mem_writes_of_rows {o : Handling R} {w : Write R} (hw : w ∈ o.writes) :
    (∃ r ∈ o.statements, w = .statement r) ∨ (∃ r ∈ o.metrics, w = .metric r.1 r.2) ∨
      (∃ r ∈ o.perfdata, w = .perfdata r) ∨ o.outcome = .queued := by
  cases o with
  | custom_variable row => exact .inr (.inr (.inr rfl))
  | log row => exact .inr (.inr (.inr rfl))
  | direct statements =>
    obtain ⟨r, hr, rfl⟩ := List.mem_map.mp hw
    exact .inl ⟨r, hr, rfl⟩
  | service_status statements metrics perfdata | throws statements metrics perfdata gone_away =>
    rcases List.mem_append.mp hw with hw | hw
    · obtain ⟨r, hr, rfl⟩ := List.mem_map.mp hw
      exact .inl ⟨r, hr, rfl⟩
    · rcases List.mem_append.mp hw with hw | hw
      · obtain ⟨r, hr, rfl⟩ := List.mem_map.mp hw
        exact .inr (.inl ⟨r, hr, rfl⟩)
      · obtain ⟨r, hr, rfl⟩ := List.mem_map.mp hw
        exact .inr (.inr (.inl ⟨r, hr, rfl⟩))

/-- What a handler runs is sent, and what it leaves for later waits. -/
theorem WriteInv.handleEvent (h : WriteInv handling m) {el : Element T 2}
    {rest events : List (Element T 2)} (hevents : m.events = el :: rest)
    (hsub : events.Sublist rest) (hflag : ¬ m.Flagged el)
    (hremoved : m.base.removed el.source ≤ el.rank) :
    WriteInv handling { m.handleEvent (handling el) el with events := events } := by
  have hsorted := h.sorted
  have hfresh := h.fresh
  rw [hevents, List.cons_append] at hsorted hfresh
  have hlist : (m.handled ++ [el] ++ (events ++ m.base.fifo.events)).Sublist
      (m.handled ++ el :: (rest ++ m.base.fifo.events)) := by
    rw [List.append_assoc, List.singleton_append]
    exact List.Sublist.append_left (.cons_cons el (hsub.append_right _)) _
  have hbase : (m.handleEvent (handling el) el).base.fifo.events = m.base.fifo.events ∧
      (m.handleEvent (handling el) el).base.removed = m.base.removed ∧
        ∀ i, ((m.handleEvent (handling el) el).base.pushed i).length = (m.base.pushed i).length := by
    unfold MainLoop.handleEvent
    dsimp only
    split
    · exact ⟨rfl, rfl, length_pushed_setFlag el m.base⟩
    · exact ⟨rfl, rfl, fun i => rfl⟩
  obtain ⟨hfifo, hremoved', hlength⟩ := hbase
  -- among the events that were handled before, none has the boolean of this one
  have hother : ∀ el' ∈ m.handled, (m.handleEvent (handling el) el).Flagged el' →
      m.Flagged el' := by
    intro el' hel' hflag'
    unfold Flagged MainLoop.handleEvent at hflag'
    dsimp only at hflag'
    split at hflag'
    · rcases Sources.pushed_setFlag hflag' with ⟨hsource, hrank⟩ | hflag'
      · have hbefore := (List.pairwise_append.mp hsorted).2.2 el' hel' el List.mem_cons_self hsource
        omega
      · exact hflag'
    · exact hflag'
  refine ⟨?_, fun el' hel' => ?_, fun p hp => ?_, fun p hp => ?_, fun el' hel' hflag' w hw => ?_,
    fun el' hel' hlt w hw => ?_⟩
  · show (m.handled ++ [el] ++ (events ++ (m.handleEvent (handling el) el).base.fifo.events)).Pairwise _
    rw [hfifo]
    exact hsorted.sublist hlist
  · show el'.rank < ((m.handleEvent (handling el) el).base.pushed el'.source).length
    rw [hlength]
    have hel' : el' ∈ m.handled ++ [el] ++
        (events ++ (m.handleEvent (handling el) el).base.fifo.events) := hel'
    rw [hfifo] at hel'
    exact hfresh el' (hlist.subset hel')
  · rcases List.mem_append.mp hp with hold | hnew
    · exact ⟨List.mem_append_left _ (h.cv p hold).1, (h.cv p hold).2⟩
    · cases hel : handling el with
      | custom_variable row =>
        rw [hel] at hnew
        rw [List.mem_singleton.mp hnew]
        exact ⟨List.mem_append_right _ (List.mem_singleton_self el), hel⟩
      | _ =>
        rw [hel] at hnew
        cases hnew
  · rcases List.mem_append.mp hp with hold | hnew
    · exact ⟨List.mem_append_left _ (h.log p hold).1, (h.log p hold).2⟩
    · cases hel : handling el with
      | log row =>
        rw [hel] at hnew
        rw [List.mem_singleton.mp hnew]
        exact ⟨List.mem_append_right _ (List.mem_singleton_self el), hel⟩
      | _ =>
        rw [hel] at hnew
        cases hnew
  · rcases List.mem_append.mp hel' with hold | hnew
    · rcases h.written el' hold (hother el' hold hflag') w hw with hsent | hwaits
      · exact .inl (List.mem_append_left _ hsent)
      · refine .inr ?_
        rcases List.mem_append.mp hwaits with hperfdata | hmetric
        · refine List.mem_append_left _ ?_
          show _ ∈ (m.perfdata_queue ++ _).map _
          rw [List.map_append]
          exact List.mem_append_left _ hperfdata
        · refine List.mem_append_right _ ?_
          show _ ∈ (m.metrics ++ _).map _
          rw [List.map_append]
          exact List.mem_append_left _ hmetric
    · rw [List.mem_singleton.mp hnew] at hflag' hw ⊢
      rcases mem_writes_of_rows hw with ⟨r, hr, rfl⟩ | ⟨r, hr, rfl⟩ | ⟨r, hr, rfl⟩ | hqueued
      · exact .inl (List.mem_append_right _ (List.mem_map_of_mem hr))
      · refine .inr (List.mem_append_right _ ?_)
        show _ ∈ (m.metrics ++ _).map _
        rw [List.map_append, List.map_map]
        exact List.mem_append_right _ (List.mem_map_of_mem hr)
      · refine .inr (List.mem_append_left _ ?_)
        show _ ∈ (m.perfdata_queue ++ _).map _
        rw [List.map_append, List.map_map]
        exact List.mem_append_right _ (List.mem_map_of_mem hr)
      · refine absurd ?_ hflag
        unfold Flagged MainLoop.handleEvent at hflag'
        dsimp only at hflag'
        rw [hqueued] at hflag'
        exact hflag'
  · have hlt : el'.rank < m.base.removed el'.source := hremoved' ▸ hlt
    rcases List.mem_append.mp hel' with hold | hnew
    · exact List.mem_append_left _ (h.counted el' hold hlt w hw)
    · rw [List.mem_singleton.mp hnew] at hlt
      omega

/-! ## Runs -/

/-- No performance data wait, but those of handlers that threw. -/
def NoneWaits (m : MainLoop T R) : Prop := ∀ p ∈ m.waiting, p.1 ∈ m.thrown

variable (cfg handling) in
/-- At each commit of a run, no performance data wait. -/
def EmptyCommits : List (Step T) → MainLoop T R → Prop
  | [], _ => True
  | a :: acts, m => (a = .finish_actions → m.NoneWaits) ∧
      ∀ m', m.step cfg handling a = some m' → EmptyCommits acts m'

variable (handling) in
/-- What always holds: the manager does the same, and the rows are written. -/
structure LoopInv (ack : Fin 2 → ℤ) (m : MainLoop T R) : Prop where
  manager : ∃ M, Manager.Inv ack M ∧ Matches M m
  writes : WriteInv handling m

variable {ack : Fin 2 → ℤ}

theorem loopInv_start (ack : Fin 2 → ℤ) (now : ℕ) :
    LoopInv handling ack (start ack now : MainLoop T R) :=
  ⟨⟨Manager.start ack, Manager.inv_start ack, rfl, rfl, .refl _, rfl, rfl, rfl, rfl⟩,
    writeInv_start ack now⟩

/-- The event of a handler that threw is not processed. -/
theorem LoopInv.settled (h : LoopInv handling ack m) (hnone : m.NoneWaits) :
    Settled handling m := by
  obtain ⟨⟨M, hinv, hmatches⟩, hwrites⟩ := h
  intro el hel hflag w hw
  rcases hwrites.written el hel hflag w hw with hsent | hwaits
  · exact hsent
  · have hthrown := hnone _ hwaits
    rw [← hmatches.thrown] at hthrown
    have hheld : el ∈ M.sources.held :=
      List.mem_append_right _ (List.mem_append_right _ (List.mem_append_left _ hthrown))
    have hfalse : (M.base.pushed el.source)[el.rank]? = some false :=
      hinv.sources.pushed_held hheld
    rw [hmatches.base, show (m.base.pushed el.source)[el.rank]? = some true from hflag] at hfalse
    cases hfalse

theorem WriteInv.send_event (h : WriteInv handling m) {c : Fin 2} {e : T} {address : ℕ}
    {base : Sources T 2} (hstep : m.base.step (.push c e address) = some base) :
    WriteInv handling { m with base := base } := by
  have hpush : base = m.base.push c e address := by
    simp only [Sources.step] at hstep
    split at hstep
    · cases hstep
    · exact (Option.some.inj hstep).symm
  have hlength : ∀ i, (m.base.pushed i).length ≤ (base.pushed i).length := by
    intro i
    rw [hpush]
    show _ ≤ (Function.update m.base.pushed c _ i).length
    by_cases hi : i = c
    · rw [hi, Function.update_self, List.length_append]
      exact Nat.le_add_right _ _
    · rw [Function.update_of_ne hi]
  have hnew : (base.pushed c).length = (m.base.pushed c).length + 1 := by
    rw [hpush]
    show (Function.update m.base.pushed c _ c).length = _
    rw [Function.update_self, List.length_append]
    rfl
  have hevents : m.handled ++ (m.events ++ base.fifo.events) =
      m.handled ++ (m.events ++ m.base.fifo.events) ++
        [⟨e, c, address, (m.base.pushed c).length⟩] := by
    rw [hpush, List.append_assoc, List.append_assoc]
    rfl
  refine ⟨?_, fun el hel => ?_, h.cv, h.log, fun el hel hflag => ?_, fun el hel hlt => ?_⟩
  · show (m.handled ++ (m.events ++ base.fifo.events)).Pairwise _
    rw [hevents, List.pairwise_append]
    refine ⟨h.sorted, List.pairwise_singleton _ _, fun a ha b hb hsource => ?_⟩
    rw [List.mem_singleton.mp hb] at hsource ⊢
    have hlt := h.fresh a ha
    rw [hsource] at hlt
    exact hlt
  · show el.rank < (base.pushed el.source).length
    have hel : el ∈ m.handled ++ (m.events ++ base.fifo.events) := hel
    rw [hevents] at hel
    rcases List.mem_append.mp hel with hold | hself
    · exact (h.fresh el hold).trans_le (hlength _)
    · rw [List.mem_singleton.mp hself, hnew]
      exact Nat.lt_succ_self _
  · exact h.written el hel (Manager.pushed_of_push hstep hflag)
  · refine h.counted el hel ?_
    have hlt : el.rank < base.removed el.source := hlt
    rw [hpush] at hlt
    exact hlt

theorem LoopInv.step (h : LoopInv handling ack m) {a : Step T}
    (hnone : a = .finish_actions → m.NoneWaits) (hstep : m.step cfg handling a = some m') :
    LoopInv handling ack m' := by
  have hsettled := fun ha => h.settled (hnone ha)
  obtain ⟨⟨M, hinv, hmatches⟩, hwrites⟩ := h
  obtain ⟨acts, M', hrun, hmatches'⟩ := follows_step hmatches hstep
  have hinv' : Manager.Inv ack M' := (Manager.run_inv hinv hrun).1
  refine ⟨⟨M', hinv', hmatches'⟩, ?_⟩
  rcases step_cases hstep with ⟨c, e, address, base, -, hbase, rfl⟩ | ⟨c, -, rfl⟩ | ⟨-, rfl⟩ |
    ⟨-, -, rfl⟩ | ⟨t, -, hturn, hevents, hwaits, hgoes, rfl⟩ | ⟨t, -, hturn, hwaits, rfl⟩ |
    ⟨time, t, el, rest, -, hturn, hevents, rfl⟩ | ⟨t, rfl, hturn, hevents, -, -, rfl⟩
  · exact hwrites.send_event hbase
  · exact ⟨hwrites.sorted, hwrites.fresh, hwrites.cv, hwrites.log, hwrites.written,
      hwrites.counted⟩
  · exact hwrites.with _ _ _ _
  · exact hwrites.insert_perfdatas.update_metrics.update_customvariables.insert_logs.with _ _ _ _
  · obtain ⟨hsorted, hfresh, hcv, hlog, hwritten, hcounted⟩ := hwrites
    rw [hevents, List.nil_append] at hsorted hfresh
    have hlist : m.base.fifo.events ++ [] = m.base.fifo.events := List.append_nil _
    exact ⟨hlist.symm ▸ hsorted, hlist.symm ▸ hfresh, hcv, hlog, hwritten, hcounted⟩
  · unfold wait
    split
    · exact hwrites.with _ _ _ _
    · exact hwrites.with _ _ _ _
  · have hmem : el ∈ M.events ++ M.base.fifo.events := by
      rw [hmatches.events, hevents]
      exact List.mem_cons_self
    have hflag : ¬ m.Flagged el := by
      intro hflag
      unfold Flagged at hflag
      rw [← hmatches.base] at hflag
      exact absurd (hinv.ordered.processed el hmem el.rank hflag) (lt_irrefl _)
    have hremoved : m.base.removed el.source ≤ el.rank := by
      rw [← hmatches.base]
      exact (hinv.sources.held el (M.mem_held_of_events hmem)).1
    have hrest := hwrites.handleEvent hevents (List.Sublist.refl rest) hflag hremoved
    unfold handle
    cases hel : handling el with
    | throws statements metrics perfdata gone_away =>
      have hnil := hwrites.handleEvent hevents (List.nil_sublist rest) hflag hremoved
      rw [hel] at hnil
      exact ⟨hnil.sorted, hnil.fresh, hnil.cv, hnil.log, hnil.written, hnil.counted⟩
    | _ =>
      rw [hel] at hrest
      exact (hrest.with _ _ _ _).counted'
  · refine ⟨hwrites.sorted, hwrites.fresh, hwrites.cv, hwrites.log, hwrites.written, ?_⟩
    intro el hel hlt w hw
    refine hsettled rfl el hel ?_ w hw
    have htrue : el.rank < M'.base.removed el.source →
        (M'.base.pushed el.source)[el.rank]? = some true :=
      hinv'.sources.removed el.source el.rank
    rw [hmatches'.base] at htrue
    exact htrue hlt

theorem LoopInv.run (h : LoopInv handling ack m₀) {acts : List (Step T)}
    (hempty : EmptyCommits cfg handling acts m₀) (hrun : run cfg handling acts m₀ = some m) :
    LoopInv handling ack m := by
  induction acts generalizing m₀ with
  | nil =>
    cases hrun
    exact h
  | cons a acts ih =>
    obtain ⟨m₁, hstep, hrun⟩ := Option.bind_eq_some_iff.mp hrun
    exact ih (h.step hempty.1 hstep) (hempty.2 m₁ hstep) hrun

theorem EmptyCommits.at_commit {pre post : List (Step T)}
    (hempty : EmptyCommits cfg handling (pre ++ .finish_actions :: post) m₀)
    (hrun : MainLoop.run cfg handling pre m₀ = some m) :
    EmptyCommits cfg handling pre m₀ ∧ m.NoneWaits := by
  induction pre generalizing m₀ with
  | nil =>
    cases hrun
    exact ⟨trivial, hempty.1 rfl⟩
  | cons a pre ih =>
    obtain ⟨m₁, hstep, hrun⟩ := Option.bind_eq_some_iff.mp hrun
    obtain ⟨-, hnone⟩ := ih (hempty.2 m₁ hstep) hrun
    exact ⟨⟨hempty.1, fun m' hm' => (ih (hempty.2 m' hm')
      (Option.some.inj (hstep.symm.trans hm') ▸ hrun)).1⟩, hnone⟩

/-- Where no performance data wait at a commit, all that is to be written for the events that it
acknowledges was sent before. -/
theorem acked_written {acts : List (Step T)} {now : ℕ}
    (hempty : EmptyCommits cfg handling acts (start ack now))
    (hrun : run cfg handling acts (start ack now) = some m) :
    (∀ pre post m, acts = pre ++ .finish_actions :: post →
      run cfg handling pre (start ack now) = some m → Settled handling m) ∧
      Counted handling m := by
  refine ⟨fun pre post m hacts hpre => ?_, ((loopInv_start ack now).run hempty hrun).writes.counted⟩
  rw [hacts] at hempty
  obtain ⟨hbefore, hnone⟩ := hempty.at_commit hpre
  exact ((loopInv_start ack now).run hbefore hpre).settled hnone

/-- A second to handle events, and rows that are sent when there are more than `max`. -/
def rowsConfig (max : ℕ) : LoopConfig := ⟨1, 2, max, max, max, max⟩

/-- Every event has one value of performance data. -/
def oneValue : Element Char 2 → Handling Char := fun el => .service_status [] [] [el.data]

/-- An event of the performance data, until its commit. -/
def oneStatus : List (Step Char) :=
  [.send_event storage 'v' 10, .begin, .look, .handle 2000, .finish_actions]

theorem emptyCommits_oneStatus :
    EmptyCommits (rowsConfig 0) oneValue oneStatus (start (fun _ => 0) 0) := by
  refine ⟨nofun, fun m₁ h₁ => ⟨nofun, fun m₂ h₂ => ⟨nofun, fun m₃ h₃ => ⟨nofun, fun m₄ h₄ => ?_⟩⟩⟩⟩
  cases h₁
  cases h₂
  cases h₃
  cases h₄
  exact ⟨fun _ p hp => (by cases hp), fun _ _ => trivial⟩

/-- Where no row may wait, the value is sent at once. -/
theorem acked_written_oneStatus :
    ∃ m, run (rowsConfig 0) oneValue oneStatus (start (fun _ => 0) 0) = some m ∧
      (∀ pre post m, oneStatus = pre ++ .finish_actions :: post →
        run (rowsConfig 0) oneValue pre (start (fun _ => 0) 0) = some m → Settled oneValue m) ∧
        Counted oneValue m := by
  have hruns : ∃ m, run (rowsConfig 0) oneValue oneStatus (start (fun _ => 0) 0) = some m :=
    ⟨_, rfl⟩
  obtain ⟨m, hrun⟩ := hruns
  exact ⟨m, hrun, acked_written emptyCommits_oneStatus hrun⟩

/-- Where one row may wait, the value is not sent when its event is acknowledged, nor after it if
the loop is stopped. -/
theorem not_written : ¬ ∀ (cfg : LoopConfig) (handling : Element Char 2 → Handling Char)
    (acts : List (Step Char)) (m : MainLoop Char Char),
    run cfg handling acts (start (fun _ => 0) 0) = some m →
      ∀ pre post m, acts = pre ++ .finish_actions :: post →
        run cfg handling pre (start (fun _ => 0) 0) = some m → Settled handling m := by
  intro h
  have hsettled := h (rowsConfig 1) oneValue oneStatus _ rfl
    [.send_event storage 'v' 10, .begin, .look, .handle 2000] [] _ rfl rfl
  have hsent := hsettled ⟨'v', storage, 10, 0⟩ List.mem_cons_self rfl (.perfdata 'v')
    List.mem_cons_self
  cases hsent

end CentreonBroker.Storage.MainLoop
