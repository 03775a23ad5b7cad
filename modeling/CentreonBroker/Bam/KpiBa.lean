import CentreonBroker.Bam.KpiHistory
import CentreonBroker.Lib.Runs

/-!
# A BA as a KPI

A BA can be a KPI of another BA. Such a KPI has the status of the event that its BA has open, and
the downtime flag of the BA itself; when either is another one than in its own event, that event
closes and the next one opens, both at the start of the event of the BA.

So its events are a timeline as long as the BA comes first: it has an event of its state when the
KPI looks at it, and one that started later than the event of the KPI when there is something new.
A downtime of the BA does neither wait for a later time nor bring one.
-/

namespace CentreonBroker.Bam.Visit

namespace LiveBa

variable {K : Type}

/-- `get_output`, of a BA with some name. -/
def get_output (name : String) (b : LiveBa K) : String :=
  s!"BA : {name} - current_level = {toInt (normalize b.ba.hard.level)}%"

/-- `get_perfdata`. -/
def get_perfdata (b : LiveBa K) : String :=
  s!"BA_Level={toInt (normalize b.ba.hard.level)}%;" ++
    s!"{toInt b.ba.config.level_warning};{toInt b.ba.config.level_critical};0;100 " ++
      s!"BA_Downtime={toInt (normalize b.ba.hard.downtime)}"

end LiveBa

/-- The members of `kpi_ba` that its configuration sets, and the name of its BA. -/
structure KpiBaConfig where
  id : ℕ
  ba_id : ℕ
  impact_warning : ℚ
  impact_critical : ℚ
  ba_name : String

/-- `kpi_ba`, but for the BA that it is linked to. -/
structure KpiBa where
  config : KpiBaConfig
  event : Option KpiEvent
  initial_events : List KpiEvent
  /-- All that the visitor was given. -/
  out : List KpiOutput

/-- The nominal impact of a state. -/
def KpiBaConfig.nominal (c : KpiBaConfig) : State → ℚ
  | .ok => 0
  | .warning => c.impact_warning
  | .critical | .unknown | .pending => c.impact_critical

/-- What `_fill_impact` makes of an impact of the BA: a percentage. -/
def percentage (d : ℚ) : ℚ := if d < 0 then 0 else if 100 < d then 100 else d

namespace KpiBa

variable {K : Type}

/-- A new KPI, once it is configured. -/
def init (c : KpiBaConfig) : KpiBa := ⟨c, none, [], []⟩

/-- `_fill_impact`. -/
def fill_impact (state : State) (acknowledgement downtime : ℚ) (k : KpiBa) : ImpactValues where
  acknowledgement := percentage acknowledgement * k.config.nominal state / 100
  downtime := percentage downtime * k.config.nominal state / 100
  nominal := k.config.nominal state
  state := state

def impact_hard (fl : ℚ → ℚ) (report : K → KpiReport) (b : LiveBa K) (k : KpiBa) : ImpactValues :=
  k.fill_impact (b.get_state_hard fl report) b.ba.hard.acknowledgement b.ba.hard.downtime

def impact_soft (fl : ℚ → ℚ) (b : LiveBa K) (k : KpiBa) : ImpactValues :=
  k.fill_impact (b.ba.get_state_soft fl) b.ba.soft.acknowledgement b.ba.soft.downtime

def write (o : KpiOutput) (k : KpiBa) : KpiBa := { k with out := k.out ++ [o] }

/-- `get_last_state_change`. -/
def get_last_state_change (now : ℤ) (k : KpiBa) : ℤ :=
  match k.event with
  | some e => e.start_time
  | none => now

/-- `_open_new_event`. The nominal impact becomes an `int`. -/
def open_new_event (b : LiveBa K) (impact : ℚ) (ba_state : State) (event_start_time : ℤ)
    (k : KpiBa) : KpiBa :=
  let e : KpiEvent :=
    { KpiEvent.init with
      kpi_id := k.config.id
      ba_id := k.config.ba_id
      impact_level := toInt impact
      in_downtime := b.in_downtime
      output := b.get_output k.config.ba_name
      perfdata := b.get_perfdata
      start_time := event_start_time
      status := ba_state }
  write (.kpi_event e) { k with event := some e }

/-- `commit_initial_events`. -/
def commit_initial_events (k : KpiBa) : KpiBa :=
  { k with out := k.out ++ k.initial_events.map .kpi_event, initial_events := [] }

/-- `ba_state`, of `visit`: the status of the event of the BA. -/
def ba_state (b : LiveBa K) : State :=
  match b.event with
  | some bae => bae.status
  | none => .ok

/-- `last_ba_update`: the start of the event of the BA, or the time of the visit. -/
def last_ba_update (b : LiveBa K) (now : ℤ) : ℤ :=
  match b.event with
  | some bae => bae.start_time
  | none => now

/-- The event is not one of the BA as it is. -/
def Outdated (b : LiveBa K) (e : KpiEvent) : Prop :=
  b.in_downtime ≠ e.in_downtime ∨ ba_state b ≠ e.status

instance (b : LiveBa K) (e : KpiEvent) : Decidable (Outdated b e) :=
  inferInstanceAs (Decidable (_ ∨ _))

/-- The events of a visit. -/
def visitEvent (b : LiveBa K) (impact : ℚ) (now : ℤ) (k : KpiBa) : KpiBa :=
  match k.event with
  | none =>
    if is_null (last_ba_update b now) then k
    else k.open_new_event b impact (ba_state b) (last_ba_update b now)
  | some e =>
    if Outdated b e then
      (k.write (.kpi_event { e with end_time := last_ba_update b now })).open_new_event b impact
        (ba_state b) (last_ba_update b now)
    else k

/-- The status of a visit. The downtime flag is not set. -/
def status (fl : ℚ → ℚ) (report : K → KpiReport) (b : LiveBa K) (now : ℤ) (k : KpiBa) :
    KpiStatus where
  kpi_id := k.config.id
  in_downtime := false
  level_acknowledgement_hard := (k.impact_hard fl report b).acknowledgement
  level_acknowledgement_soft := (k.impact_soft fl b).acknowledgement
  level_downtime_hard := (k.impact_hard fl report b).downtime
  level_downtime_soft := (k.impact_soft fl b).downtime
  level_nominal_hard := (k.impact_hard fl report b).nominal
  level_nominal_soft := (k.impact_soft fl b).nominal
  state_hard := b.get_state_hard fl report
  state_soft := b.ba.get_state_soft fl
  last_state_change := k.get_last_state_change now
  last_impact := (k.impact_hard fl report b).nominal

/-- `visit`. -/
def visit (fl : ℚ → ℚ) (report : K → KpiReport) (b : LiveBa K) (now : ℤ) (k : KpiBa) : KpiBa :=
  let k := k.commit_initial_events.visitEvent b (k.impact_hard fl report b).nominal now
  k.write (.kpi_status (k.status fl report b now))

/-- `child_has_update`, for a child that is the BA or not. -/
def child_has_update (fl : ℚ → ℚ) (report : K → KpiReport) (b : LiveBa K) (is_ba : Bool) (now : ℤ)
    (k : KpiBa) : KpiBa :=
  if is_ba then k.visit fl report b now else k

end KpiBa

/-! ## Runs -/

/-- A KPI and the BA that it is linked to, among the KPIs of that BA. -/
structure LinkedWorld (K : Type) where
  below : LiveWorld K
  kpi : KpiBa

/-- What happens: a call of the BA, or one of the KPI. -/
inductive LinkedOp (K : Type) where
  | below (op : LiveOp K)
  | child_has_update (is_ba : Bool) (now : ℤ)
  | visit (now : ℤ)

namespace LinkedWorld

variable {K : Type}

def step [DecidableEq K] (fl : ℚ → ℚ) (w : LinkedWorld K) : LinkedOp K → LinkedWorld K
  | .below op => { w with below := w.below.step fl op }
  | .child_has_update is_ba now =>
    { w with kpi := w.kpi.child_has_update fl w.below.report w.below.live is_ba now }
  | .visit now => { w with kpi := w.kpi.visit fl w.below.report w.below.live now }

/-- A new KPI, linked to a new BA. -/
def start (c : Config) (id host_id service_id : ℕ) (generate_virtual_status : Bool)
    (report : K → KpiReport) (kpi : KpiBaConfig) : LinkedWorld K :=
  ⟨⟨report, .init c id host_id service_id generate_virtual_status⟩, .init kpi⟩

/-- The time of a visit of the KPI, for a call that visits it. -/
def visited : LinkedOp K → Option ℤ
  | .below _ => none
  | .child_has_update is_ba now => if is_ba then some now else none
  | .visit now => some now

/-! ## What is promised, and what it takes -/

/-- Between zero and the nominal impact. -/
def Within (i : ImpactValues) (d : ℚ) : Prop := min 0 i.nominal ≤ d ∧ d ≤ max 0 i.nominal

/-- The events that the KPI wrote are a timeline, of which its event is the one that is open, and
its impacts are parts of the nominal ones. -/
structure Sound (fl : ℚ → ℚ) (w : LinkedWorld K) : Prop where
  timeline : KpiTimeline (fun _ => True) (kpiEvents w.kpi.out) w.kpi.event
  impacts : ∀ i ∈ [w.kpi.impact_hard fl w.below.report w.below.live,
    w.kpi.impact_soft fl w.below.live], Within i i.acknowledgement ∧ Within i i.downtime

/-- The KPI has an event, with the state and the downtime flag of the BA. -/
def Follows (fl : ℚ → ℚ) (w : LinkedWorld K) : Prop :=
  ∃ e, w.kpi.event = some e ∧ e.status = w.below.live.get_state_hard fl w.below.report ∧
    e.in_downtime = w.below.live.in_downtime

/-- What is promised after a call. -/
def Promised [DecidableEq K] (fl : ℚ → ℚ) (w : LinkedWorld K) (op : LinkedOp K) : Prop :=
  Sound fl (w.step fl op) ∧ ((visited op).isSome → Follows fl (w.step fl op))

/-- There is a time for the first event of a KPI, and what makes the next one open started later
than the last one. -/
def Later (b : LiveBa K) (now : ℤ) : Option KpiEvent → Prop
  | none => is_null (KpiBa.last_ba_update b now) = false
  | some e => KpiBa.Outdated b e → e.start_time < KpiBa.last_ba_update b now

/-- A visit comes in time: the BA has written the state that it is in, and has done so later than
the KPI had its last event. -/
def InTime (fl : ℚ → ℚ) (w : LinkedWorld K) (op : LinkedOp K) : Prop :=
  ∀ now ∈ visited op,
    KpiBa.ba_state w.below.live = w.below.live.get_state_hard fl w.below.report ∧
      Later w.below.live now w.kpi.event

/-! ## The impacts -/

theorem percentage_nonneg (d : ℚ) : 0 ≤ percentage d := by
  unfold percentage
  split
  · exact le_refl 0
  · rename_i hneg
    split
    · norm_num
    · exact not_lt.mp hneg

theorem percentage_le (d : ℚ) : percentage d ≤ 100 := by
  unfold percentage
  split
  · norm_num
  · split
    · exact le_refl 100
    · rename_i hle
      exact not_lt.mp hle

/-- A percentage of the nominal impact. -/
theorem within_percentage (i : ImpactValues) (d : ℚ) :
    Within i (percentage d * i.nominal / 100) := by
  have hnonneg := percentage_nonneg d
  have hle := percentage_le d
  rcases le_total 0 i.nominal with hn | hn
  · rw [Within, min_eq_left hn, max_eq_right hn]
    constructor
    · positivity
    · nlinarith
  · rw [Within, min_eq_right hn, max_eq_left hn]
    constructor
    · nlinarith
    · nlinarith

/-- In exact numbers: a percentage of a double may exceed it by a rounding. -/
theorem impacts_within (fl : ℚ → ℚ) (w : LinkedWorld K) :
    ∀ i ∈ [w.kpi.impact_hard fl w.below.report w.below.live, w.kpi.impact_soft fl w.below.live],
      Within i i.acknowledgement ∧ Within i i.downtime := by
  intro i hi
  rcases List.mem_pair.mp hi with rfl | rfl
  · exact ⟨within_percentage _ _, within_percentage _ _⟩
  · exact ⟨within_percentage _ _, within_percentage _ _⟩

/-! ## The events -/

section

variable {P : KpiEvent → Prop} {l : List KpiEvent} {e e' : KpiEvent} {last : Option KpiEvent}

/-- In a timeline what ends with one event and opens the next one takes time. -/
theorem start_lt_of_timeline (h : KpiTimeline P (l ++ [e, e']) last) :
    e.start_time < e'.start_time := by
  generalize hl : l ++ [e, e'] = l' at h
  cases h with
  | nil => simp at hl
  | first e'' =>
    have hlength := congrArg List.length hl
    simp at hlength
  | @next l₁ e₁ _ e₂ hlt =>
    obtain ⟨-, htail⟩ := List.append_inj' hl rfl
    obtain ⟨rfl, hlast⟩ := List.cons.inj htail
    obtain rfl := (List.cons.inj hlast).1
    exact hlt

/-- Each event of a timeline is open, or ends after its start. -/
theorem ends_later_of_timeline (h : KpiTimeline P l last) :
    ∀ e ∈ l, e.end_time = -1 ∨ e.start_time < e.end_time := by
  induction h with
  | nil => exact List.forall_mem_nil _
  | first e hopen => exact List.forall_mem_singleton.mpr (.inl hopen)
  | next _ e' hlt hopen _ _ ih =>
    intro e he
    rcases List.mem_append.mp he with hold | hnew
    · exact ih e hold
    · rcases List.mem_pair.mp hnew with rfl | rfl
      · exact .inr hlt
      · exact .inl hopen

end

theorem sound_iff {fl : ℚ → ℚ} (w : LinkedWorld K) :
    Sound fl w ↔ KpiTimeline (fun _ => True) (kpiEvents w.kpi.out) w.kpi.event :=
  ⟨fun h => h.timeline, fun h => ⟨h, impacts_within fl w⟩⟩

/-- An event that opens is the last one that was written. -/
theorem kpiEvents_open_new_event (b : LiveBa K) (impact : ℚ) (s : State) (t : ℤ) (k : KpiBa) :
    ∃ e, (k.open_new_event b impact s t).event = some e ∧
      kpiEvents (k.open_new_event b impact s t).out = kpiEvents k.out ++ [e] ∧
      e.end_time = -1 ∧ e.start_time = t ∧ e.status = s ∧ e.in_downtime = b.in_downtime := by
  refine ⟨_, rfl, ?_, rfl, rfl, rfl, rfl⟩
  show kpiEvents (k.out ++ [_]) = _
  rw [kpiEvents_append]
  rfl

/-- After a visit the events are a timeline that ends with the state `s` of the BA, exactly when the
event of the BA has this state and the visit comes in time. -/
theorem timeline_visitEvent_iff {b : LiveBa K} {k : KpiBa} {now : ℤ} {s : State} (impact : ℚ)
    (h : KpiTimeline (fun _ => True) (kpiEvents k.out) k.event) :
    (KpiTimeline (fun _ => True) (kpiEvents (k.visitEvent b impact now).out)
        (k.visitEvent b impact now).event ∧
      ∃ e, (k.visitEvent b impact now).event = some e ∧ e.status = s ∧
        e.in_downtime = b.in_downtime) ↔
    KpiBa.ba_state b = s ∧ Later b now k.event := by
  unfold KpiBa.visitEvent
  cases hevent : k.event with
  | none =>
    rw [hevent] at h
    dsimp only
    split
    · -- there is no time for a first event
      rename_i hnull
      rw [hevent]
      simp [Later, hnull]
    · rename_i hnull
      obtain ⟨e, he, hout, hopen, -, hstatus, hdowntime⟩ :=
        kpiEvents_open_new_event b impact (KpiBa.ba_state b) (KpiBa.last_ba_update b now) k
      rw [he, hout, h.eq_nil]
      constructor
      · rintro ⟨-, e', he', hs, -⟩
        obtain rfl := Option.some.inj he'
        exact ⟨hstatus.symm.trans hs, Bool.eq_false_iff.mpr hnull⟩
      · intro hcond
        exact ⟨.first e hopen trivial, e, rfl, hstatus.trans hcond.1, hdowntime⟩
  | some e =>
    rw [hevent] at h
    dsimp only
    split
    · -- the event closes at the start of the one of the BA, whenever that is
      rename_i houtdated
      obtain ⟨e', he', hout, hopen, hstart, hstatus, hdowntime⟩ :=
        kpiEvents_open_new_event b impact (KpiBa.ba_state b) (KpiBa.last_ba_update b now)
          (k.write (.kpi_event { e with end_time := KpiBa.last_ba_update b now }))
      have hlast : kpiEvents (k.write (.kpi_event { e with
          end_time := KpiBa.last_ba_update b now })).out ++ [e'] =
          kpiEvents k.out ++ [{ e with end_time := e'.start_time }, e'] := by
        show kpiEvents (k.out ++ [_]) ++ [e'] = _
        rw [kpiEvents_append, hstart, List.append_assoc]
        rfl
      rw [he', hout, hlast]
      constructor
      · rintro ⟨htimeline, e'', he'', hs, -⟩
        obtain rfl := Option.some.inj he''
        have hlt := start_lt_of_timeline htimeline
        exact ⟨hstatus.symm.trans hs, fun _ => hstart ▸ hlt⟩
      · intro hcond
        have hchange : e'.status ≠ e.status ∨ e'.in_downtime ≠ e.in_downtime := by
          rw [hstatus, hdowntime]
          exact houtdated.symm
        have hlt : e.start_time < e'.start_time := by
          rw [hstart]
          exact hcond.2 houtdated
        exact ⟨.next h e' hlt hopen hchange trivial, e', rfl, hstatus.trans hcond.1, hdowntime⟩
    · -- the event stays, as it is the one of the BA
      rename_i houtdated
      have hsame : b.in_downtime = e.in_downtime ∧ KpiBa.ba_state b = e.status := by
        unfold KpiBa.Outdated at houtdated
        tauto
      rw [hevent]
      constructor
      · rintro ⟨-, e', he', hs, -⟩
        obtain rfl := Option.some.inj he'
        exact ⟨hsame.2.trans hs, fun hout => absurd hout houtdated⟩
      · intro hcond
        exact ⟨h, e, rfl, hsame.2.symm.trans hcond.1, hsame.1.symm⟩

variable {fl : ℚ → ℚ} {w : LinkedWorld K}

/-- What a KPI keeps between two calls. -/
structure History (w : LinkedWorld K) : Prop where
  timeline : KpiTimeline (fun _ => True) (kpiEvents w.kpi.out) w.kpi.event
  initial : w.kpi.initial_events = []

theorem commit_initial_events_of_nil {k : KpiBa} (h : k.initial_events = []) :
    k.commit_initial_events = k := by
  unfold KpiBa.commit_initial_events
  rw [h, List.map_nil, List.append_nil, ← h]

theorem initial_visitEvent {k : KpiBa} (h : k.initial_events = []) (b : LiveBa K) (impact : ℚ)
    (now : ℤ) : (k.visitEvent b impact now).initial_events = [] := by
  unfold KpiBa.visitEvent
  split
  · split
    · exact h
    · exact h
  · split
    · exact h
    · exact h

/-- The status that a visit writes is no event. -/
theorem kpiEvents_visit (report : K → KpiReport) (b : LiveBa K) (now : ℤ) {k : KpiBa}
    (h : k.initial_events = []) :
    kpiEvents (k.visit fl report b now).out =
      kpiEvents (k.visitEvent b (k.impact_hard fl report b).nominal now).out := by
  show kpiEvents ((k.commit_initial_events.visitEvent _ _ _).out ++ [_]) = _
  rw [kpiEvents_append, commit_initial_events_of_nil h]
  exact List.append_nil _

/-- A visit of the KPI keeps what is promised exactly when it comes in time. -/
theorem visit_iff (h : History w) (now : ℤ) :
    (Sound fl ⟨w.below, w.kpi.visit fl w.below.report w.below.live now⟩ ∧
      Follows fl ⟨w.below, w.kpi.visit fl w.below.report w.below.live now⟩) ↔
    KpiBa.ba_state w.below.live = w.below.live.get_state_hard fl w.below.report ∧
      Later w.below.live now w.kpi.event := by
  have hevent : (w.kpi.visit fl w.below.report w.below.live now).event =
      (w.kpi.visitEvent w.below.live (w.kpi.impact_hard fl w.below.report w.below.live).nominal
        now).event := by
    show (w.kpi.commit_initial_events.visitEvent _ _ _).event = _
    rw [commit_initial_events_of_nil h.initial]
  rw [sound_iff]
  unfold Follows
  rw [kpiEvents_visit w.below.report w.below.live now h.initial, hevent]
  exact timeline_visitEvent_iff _ h.timeline

theorem History.visit (h : History w) (now : ℤ)
    (hsound : Sound fl ⟨w.below, w.kpi.visit fl w.below.report w.below.live now⟩) :
    History ⟨w.below, w.kpi.visit fl w.below.report w.below.live now⟩ where
  timeline := hsound.timeline
  initial := by
    show (w.kpi.commit_initial_events.visitEvent _ _ _).initial_events = []
    rw [commit_initial_events_of_nil h.initial]
    exact initial_visitEvent h.initial _ _ _

variable [DecidableEq K]

/-- A call that does not visit the KPI leaves its events as they are. -/
theorem kpi_step {op : LinkedOp K} (h : visited op = none) (w : LinkedWorld K) :
    (w.step fl op).kpi = w.kpi := by
  cases op with
  | below op => rfl
  | child_has_update is_ba now =>
    cases is_ba with
    | false => rfl
    | true => cases h
  | visit now => cases h

theorem step_visited {op : LinkedOp K} {now : ℤ} (h : visited op = some now) (w : LinkedWorld K) :
    w.step fl op = ⟨w.below, w.kpi.visit fl w.below.report w.below.live now⟩ := by
  cases op with
  | below op => cases h
  | child_has_update is_ba now' =>
    cases is_ba with
    | false => cases h
    | true =>
      cases h
      rfl
  | visit now' =>
    cases h
    rfl

/-- A call keeps what is promised exactly when it comes in time. -/
theorem promised_iff (h : History w) (op : LinkedOp K) : Promised fl w op ↔ InTime fl w op := by
  unfold Promised InTime
  cases hop : visited op with
  | none =>
    have hkpi := @kpi_step K fl _ op hop w
    have hsound : Sound fl (w.step fl op) := by
      rw [sound_iff, hkpi]
      exact h.timeline
    simp [hsound]
  | some now =>
    rw [step_visited hop]
    simp only [Option.isSome_some, forall_const, Option.mem_some_iff, forall_eq']
    exact visit_iff h now

theorem History.step (h : History w) {op : LinkedOp K} (hsound : Sound fl (w.step fl op)) :
    History (w.step fl op) := by
  cases hop : visited op with
  | none =>
    have hkpi := @kpi_step K fl _ op hop w
    refine ⟨hsound.timeline, ?_⟩
    rw [hkpi]
    exact h.initial
  | some now =>
    rw [step_visited hop] at hsound ⊢
    exact h.visit now hsound

/--
**The events of a KPI that is a BA are a timeline** that follows the BA, after every call of a run
of both, exactly when every visit of the KPI comes in time.
-/
theorem linked_timeline_iff (fl : ℚ → ℚ) (c : Config) (id host_id service_id : ℕ)
    (generate_virtual_status : Bool) (report : K → KpiReport) (kpi : KpiBaConfig)
    (ops : List (LinkedOp K)) :
    EachStep (step fl) (Promised fl)
        (start c id host_id service_id generate_virtual_status report kpi) ops ↔
      EachStep (step fl) (InTime fl)
        (start c id host_id service_id generate_virtual_status report kpi) ops := by
  have hstart : History (start c id host_id service_id generate_virtual_status report kpi) :=
    ⟨.nil, rfl⟩
  constructor
  · intro h
    refine h.mono (P := History) ?_ hstart
    intro w op hw hpromised
    exact ⟨(promised_iff hw op).mp hpromised, hw.step hpromised.1⟩
  · intro h
    refine h.mono (P := History) ?_ hstart
    intro w op hw hintime
    have hpromised := (promised_iff hw op).mpr hintime
    exact ⟨hpromised, hw.step hpromised.1⟩

/-- A BA that is OK is put in downtime: its KPI closes an event at the time that it started. -/
theorem not_linked_timeline : ¬ ∀ ops : List (LinkedOp Unit),
    EachStep (step id) (Promised id)
      (start ⟨.impact, .dt_ignore, 0, 0, true⟩ 1 1 1 false
        (fun _ => ⟨⟨⟨0, 0, 0, .ok⟩, ⟨0, 0, 0, .ok⟩, false⟩, 10⟩) ⟨1, 2, 5, 10, "ba"⟩) ops := by
  intro h
  have hevents := h [.below (.visit 100), .visit 100,
    .below (.service_update ⟨1, 1, true, -1⟩ 150), .child_has_update true 150]
  have hlater := ends_later_of_timeline hevents.2.2.2.1.1.timeline
  revert hlater
  decide +kernel

end LinkedWorld

end CentreonBroker.Bam.Visit
