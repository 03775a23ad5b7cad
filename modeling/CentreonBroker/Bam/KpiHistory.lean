import CentreonBroker.Bam.KpiService

/-!
# The event history of the KPI of a service

The events that a KPI writes are a timeline, as those of a BA are, with one difference: an event
closes only at a check that is later than the one it was opened at. Changes within the same second
wait for the next check.

The impact of an event is an integer: what is after the point is lost.
-/

namespace CentreonBroker.Bam.Visit

/-- The impact of a KPI in some state, in downtime or not. -/
def eventImpact (c : KpiConfig) (e : KpiEvent) : ℚ :=
  if e.in_downtime then (fillImpact c false e.in_downtime e.status).downtime
  else (fillImpact c false e.in_downtime e.status).nominal

/-- Some events one after the other, and the one that is open at the end. `P` is what they are to
satisfy when they open. -/
inductive KpiTimeline (P : KpiEvent → Prop) : List KpiEvent → Option KpiEvent → Prop where
  | nil : KpiTimeline P [] none
  | first (e : KpiEvent) (hopen : e.end_time = -1) (hlevel : P e) : KpiTimeline P [e] (some e)
  | next {l : List KpiEvent} {e : KpiEvent} (h : KpiTimeline P l (some e)) (e' : KpiEvent)
      (hlt : e.start_time < e'.start_time) (hopen : e'.end_time = -1)
      (hchange : e'.status ≠ e.status ∨ e'.in_downtime ≠ e.in_downtime) (hlevel : P e') :
      KpiTimeline P (l ++ [{ e with end_time := e'.start_time }, e']) (some e')

theorem KpiTimeline.eq_nil {P : KpiEvent → Prop} {l : List KpiEvent} (h : KpiTimeline P l none) :
    l = [] := by
  generalize hnone : (none : Option KpiEvent) = last at h
  cases h with
  | nil => rfl
  | first => cases hnone
  | next => cases hnone

theorem KpiTimeline.of_singleton {P : KpiEvent → Prop} {e : KpiEvent} {last : Option KpiEvent}
    (h : KpiTimeline P [e] last) : P e := by
  generalize hl : [e] = l at h
  cases h with
  | nil => cases hl
  | first e' _ hlevel =>
    obtain rfl := List.singleton_inj.mp hl
    exact hlevel
  | next =>
    have hlength := congrArg List.length hl
    simp at hlength

/-- The events among what a KPI wrote. -/
def kpiEvents (out : List KpiOutput) : List KpiEvent :=
  out.filterMap fun
    | .kpi_event e => some e
    | .kpi_status _ => none

theorem kpiEvents_append (out out' : List KpiOutput) :
    kpiEvents (out ++ out') = kpiEvents out ++ kpiEvents out' := List.filterMap_append

/-- The impact of an opened event, as far as an integer can have it. -/
def Level (c : KpiConfig) (e : KpiEvent) : Prop := e.impact_level = toInt (eventImpact c e)

namespace KpiService

variable {k : KpiService}

/-- What was written ends with the event of the KPI. -/
structure History (k : KpiService) : Prop where
  timeline : KpiTimeline (Level k.config) (kpiEvents k.out) k.event
  initial : k.initial_events = []

theorem History.init (c : KpiConfig) (acknowledged downtimed : Bool) (status : State) (state_type : ℤ) :
    History (init c acknowledged downtimed status state_type) := ⟨.nil, rfl⟩

/-- The impact that is read with the flag of a new event is the one that belongs to the flag of the
KPI: in downtime the two are the same. -/
theorem level_open_new_event (c : KpiConfig) (acknowledged : Bool) {e : KpiEvent}
    (h : e.impact_level = toInt (fillImpact c acknowledged e.in_downtime e.status).nominal) :
    Level c e := by
  unfold Level eventImpact
  rw [h]
  split
  · rename_i hdowntime
    rw [hdowntime]
    rfl
  · rfl

/-- An event that opens, where what was written ends with one that is closed at that time. -/
theorem timeline_open_new_event {l : List KpiEvent} (hlevel : l = kpiEvents k.out)
    (h : ∀ e', e'.end_time = -1 → e'.start_time = k.last_check → e'.status = k.state_hard →
      e'.in_downtime = k.downtimed → Level k.config e' →
        KpiTimeline (Level k.config) (l ++ [e']) (some e')) :
    KpiTimeline (Level k.config) (kpiEvents (k.open_new_event k.impact_hard).out)
      (k.open_new_event k.impact_hard).event := by
  show KpiTimeline _ (kpiEvents (k.out ++ [_])) (some _)
  rw [kpiEvents_append, ← hlevel]
  exact h _ rfl rfl rfl rfl (level_open_new_event k.config k.acknowledged rfl)

theorem timeline_visitEvent (h : KpiTimeline (Level k.config) (kpiEvents k.out) k.event) :
    KpiTimeline (Level k.config) (kpiEvents k.visitEvent.out) k.visitEvent.event := by
  unfold KpiService.visitEvent
  split
  · rename_i hnone
    split
    · exact h
    · -- the first event
      refine timeline_open_new_event rfl ?_
      intro e' hopen _ _ _ hlevel
      rw [hnone] at h
      rw [h.eq_nil]
      exact .first e' hopen hlevel
  · rename_i e he
    split
    · -- one event closes, the next one opens
      rename_i hcond
      obtain ⟨hlt, hchange⟩ := hcond
      rw [he] at h
      refine timeline_open_new_event (k := k.write _) rfl ?_
      intro e' hopen hstart hstatus hdowntime hlevel
      have hlast : kpiEvents (k.write (.kpi_event { e with end_time := k.last_check })).out ++ [e'] =
          kpiEvents k.out ++ [{ e with end_time := e'.start_time }, e'] := by
        show kpiEvents (k.out ++ [_]) ++ [e'] = _
        rw [kpiEvents_append, hstart, List.append_assoc]
        rfl
      have hstart : e'.start_time = k.last_check := hstart
      have hstatus : e'.status = k.state_hard := hstatus
      have hdowntime : e'.in_downtime = k.downtimed := hdowntime
      rw [hlast]
      refine .next h e' ?_ hopen ?_ hlevel
      · rw [hstart]
        exact hlt
      · rw [hstatus, hdowntime]
        exact hchange.symm
    · exact h

theorem initial_visitEvent (h : k.initial_events = []) : k.visitEvent.initial_events = [] := by
  unfold KpiService.visitEvent
  split
  · split <;> exact h
  · split <;> exact h

theorem History.visit (h : History k) (now : ℤ) : History (k.visit now) where
  timeline := by
    have hcommit : KpiTimeline (Level k.config) (kpiEvents k.commit_initial_events.out) k.event := by
      show KpiTimeline _ (kpiEvents (k.out ++ k.initial_events.map .kpi_event)) _
      rw [h.initial, List.map_nil, List.append_nil]
      exact h.timeline
    have hevent := timeline_visitEvent (k := k.commit_initial_events) hcommit
    show KpiTimeline _ (kpiEvents (k.commit_initial_events.visitEvent.out ++ [_])) _
    rw [kpiEvents_append, (same_visit now k).config]
    exact (List.append_nil _).symm ▸ hevent
  initial := initial_visitEvent (k := k.commit_initial_events) rfl

/-- The flags and the states of a KPI are not part of its history. -/
theorem History.set (h : History k) (e : ServiceEvent) : History (k.set e) := by
  cases e <;> exact ⟨h.timeline, h.initial⟩

theorem History.service_update (h : History k) (e : ServiceEvent) : History (k.service_update e) := by
  unfold KpiService.service_update
  split
  · exact (h.set e).visit e.now
  · exact h

theorem History.run (h : History k) (events : List ServiceEvent) : History (k.run events) := by
  induction events generalizing k with
  | nil => exact h
  | cons e events ih => exact ih (h.service_update e)

/-- The events that a KPI writes are a timeline, whatever comes about its service. -/
theorem events_kpiTimeline (c : KpiConfig) (acknowledged downtimed : Bool) (status : State)
    (state_type : ℤ) (events : List ServiceEvent) :
    KpiTimeline (Level c) (kpiEvents ((init c acknowledged downtimed status state_type).run events).out)
      ((init c acknowledged downtimed status state_type).run events).event := by
  have h := ((History.init c acknowledged downtimed status state_type).run events).timeline
  rw [run_config] at h
  exact h

/-- The first critical status of a service whose critical impact is twelve and a half: the event has
the impact twelve. -/
theorem level_truncated : ¬ ∀ (c : KpiConfig) (events : List ServiceEvent), ∃ last,
    KpiTimeline (fun e => (e.impact_level : ℚ) = eventImpact c e)
      (kpiEvents ((init c false false .ok 1).run events).out) last := by
  intro h
  obtain ⟨last, h⟩ := h ⟨1, 1, 1, 1, 0, 25 / 2, 0⟩
    [.service_status ⟨1, 1, 100, 100, "", "", .critical, .critical, 1⟩ 100]
  have hlevel := KpiTimeline.of_singleton h
  revert hlevel
  decide +kernel

end KpiService

end CentreonBroker.Bam.Visit
