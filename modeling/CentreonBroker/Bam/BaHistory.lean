import CentreonBroker.Bam.BaVisit

/-!
# The event history of a BA

The events that a BA writes are a timeline: one is open at most, each closes at or after its start,
and the next one opens at that very time, with another status or another downtime flag.

The argument needs two facts about a BA between two calls. What was written, with the initial
events that are still to be, ends with the event that the BA has. And that event does not start
after the time of the last KPI update, which only grows while there is an event.
-/

namespace CentreonBroker.Bam.Visit

/-- Some events one after the other, and the one that is open at the end. -/
inductive Timeline : List BaEvent → Option BaEvent → Prop where
  | nil : Timeline [] none
  | first (e : BaEvent) (hopen : e.end_time = -1) : Timeline [e] (some e)
  | next {l : List BaEvent} {e : BaEvent} (h : Timeline l (some e)) (e' : BaEvent)
      (hle : e.start_time ≤ e'.start_time) (hopen : e'.end_time = -1)
      (hchange : e'.status ≠ e.status ∨ e'.in_downtime ≠ e.in_downtime) :
      Timeline (l ++ [{ e with end_time := e'.start_time }, e']) (some e')

/-- Before the first event nothing is open, and never after it. -/
theorem Timeline.eq_nil {l : List BaEvent} (h : Timeline l none) : l = [] := by
  generalize hnone : (none : Option BaEvent) = last at h
  cases h with
  | nil => rfl
  | first => cases hnone
  | next => cases hnone

/-- The events among what a BA wrote. -/
def baEvents (out : List BaOutput) : List BaEvent :=
  out.filterMap fun
    | .ba_event e => some e
    | _ => none

theorem baEvents_append (out out' : List BaOutput) :
    baEvents (out ++ out') = baEvents out ++ baEvents out' := List.filterMap_append

theorem baEvents_map (l : List BaEvent) : baEvents (l.map .ba_event) = l := by
  unfold baEvents
  rw [List.filterMap_map]
  exact List.filterMap_some

namespace LiveBa

variable {K : Type} {b : LiveBa K}

/-- What a BA keeps between two calls. -/
structure History (b : LiveBa K) : Prop where
  /-- What was written, and what is to be written first, ends with the event of the BA. -/
  timeline : Timeline (baEvents b.out ++ b.initial_events) b.event
  /-- Only the event that a BA starts with waits to be written. -/
  initial : b.initial_events = [] ∨ baEvents b.out = []
  /-- The event does not start after the last KPI update. -/
  started : ∀ e, b.event = some e → e.start_time ≤ b.last_kpi_update

theorem History.init (c : Config) (id host_id service_id : ℕ) (generate_virtual_status : Bool) :
    History (init c id host_id service_id generate_virtual_status : LiveBa K) where
  timeline := .nil
  initial := .inl rfl
  started := by
    intro e he
    cases he

/-- The calls do not shift the events that are there; they may raise the time of the last update. -/
theorem History.mono {b' : LiveBa K} (h : History b) (hout : baEvents b'.out = baEvents b.out)
    (hinitial : b'.initial_events = b.initial_events) (hevent : b'.event = b.event)
    (hle : b.last_kpi_update ≤ b'.last_kpi_update) : History b' where
  timeline := by
    rw [hout, hinitial, hevent]
    exact h.timeline
  initial := by
    rw [hout, hinitial]
    exact h.initial
  started := by
    intro e he
    rw [hevent] at he
    exact (h.started e he).trans hle

theorem History.commit_initial_events (h : History b) : History b.commit_initial_events where
  timeline := by
    show Timeline (baEvents (b.out ++ b.initial_events.map .ba_event) ++ []) b.event
    rw [baEvents_append, baEvents_map, List.append_nil]
    exact h.timeline
  initial := .inl rfl
  started := h.started

/-- An event that opens, where what was written ends with one that is closed at that time. -/
theorem History.open_new_event {service_hard_state : State} (hinitial : b.initial_events = [])
    (h : ∀ e', e'.end_time = -1 → e'.start_time = b.last_kpi_update →
      e'.status = service_hard_state → e'.in_downtime = b.in_downtime →
        Timeline (baEvents b.out ++ [e']) (some e')) :
    History (b.open_new_event service_hard_state) where
  timeline := by
    show Timeline (baEvents (b.out ++ [_]) ++ b.initial_events) _
    rw [hinitial, List.append_nil, baEvents_append]
    exact h _ rfl rfl rfl rfl
  initial := .inl hinitial
  started := by
    intro e he
    cases he
    exact le_refl _

theorem History.visitEvent (h : History b) (hinitial : b.initial_events = []) (hard_state : State)
    (now : ℤ) : History (b.visitEvent hard_state now) := by
  have htimeline := h.timeline
  rw [hinitial, List.append_nil] at htimeline
  unfold LiveBa.visitEvent
  split
  · -- the first event
    rename_i hnone
    rw [hnone] at htimeline
    refine History.open_new_event hinitial ?_
    intro e' hopen _ _ _
    dsimp only
    rw [htimeline.eq_nil]
    exact .first e' hopen
  · rename_i e he
    split
    · -- one event closes, the next one opens
      rename_i hchange
      refine History.open_new_event hinitial ?_
      intro e' hopen hstart hstatus hdowntime
      have hstarted := h.started e he
      rw [he] at htimeline
      have hlast : baEvents (write (.ba_event { e with end_time := b.last_kpi_update }) b).out ++ [e'] =
          baEvents b.out ++ [{ e with end_time := e'.start_time }, e'] := by
        show baEvents (b.out ++ [_]) ++ [e'] = _
        rw [baEvents_append, hstart, List.append_assoc]
        rfl
      rw [hlast]
      refine .next htimeline e' ?_ hopen ?_
      · rw [hstart]
        exact hstarted
      · rw [hstatus, hdowntime]
        exact hchange.symm
    · exact h

/-- Statuses are no events. -/
theorem History.writeStatus (h : History b) (hard_state : State) (state_changed : Bool) (now : ℤ) :
    History (b.writeStatus hard_state state_changed now) := by
  unfold LiveBa.writeStatus
  dsimp only
  split
  · refine h.mono ?_ rfl rfl (le_refl _)
    show baEvents (b.out ++ [_] ++ [_]) = _
    rw [baEvents_append, baEvents_append]
    simp [baEvents]
  · refine h.mono ?_ rfl rfl (le_refl _)
    show baEvents (b.out ++ [_]) = _
    rw [baEvents_append]
    simp [baEvents]

theorem History.visit [DecidableEq K] (h : History b) (fl : ℚ → ℚ) (report : K → KpiReport) (now : ℤ) :
    History (b.visit fl report now) :=
  (h.commit_initial_events.visitEvent rfl _ now).writeStatus _ _ now

theorem le_raise (r : KpiReport) (b : LiveBa K) :
    b.last_kpi_update ≤ (b.raise r).last_kpi_update := by
  unfold raise
  split
  · exact le_max_left _ _
  · exact le_refl _

theorem History.raise (h : History b) (r : KpiReport) : History (b.raise r) := by
  have hle := le_raise r b
  unfold LiveBa.raise at hle ⊢
  split at hle
  · rename_i hset
    rw [if_pos hset]
    exact h.mono rfl rfl rfl hle
  · rename_i hset
    rw [if_neg hset]
    exact h

theorem History.compute_inherited_downtime [DecidableEq K] (h : History b) (fl : ℚ → ℚ) (report : K → KpiReport) :
    History (b.compute_inherited_downtime fl report) := by
  have hwrite : ∀ in_downtime inherited flag,
      History (write (.inherited_downtime b.id flag)
        { b with in_downtime := in_downtime, inherited_downtime := inherited }) := by
    intro in_downtime inherited flag
    refine h.mono ?_ rfl rfl (le_refl _)
    show baEvents (b.out ++ [_]) = _
    rw [baEvents_append]
    simp [baEvents]
  unfold LiveBa.compute_inherited_downtime
  dsimp only
  split
  · exact h
  split
  · exact hwrite _ _ _
  split
  · exact hwrite _ _ _
  · exact h

theorem History.set_initial_event (h : History b) {e : BaEvent} (hopen : e.end_time = -1) :
    History (b.set_initial_event e) := by
  unfold LiveBa.set_initial_event
  split
  · exact h
  · rename_i hnone
    -- nothing was written before there is an event
    have htimeline := h.timeline
    rw [hnone] at htimeline
    obtain ⟨hout, hinitial⟩ := List.append_eq_nil_iff.mp htimeline.eq_nil
    refine ⟨?_, .inr hout, ?_⟩
    · show Timeline (baEvents b.out ++ (b.initial_events ++ [e])) (some e)
      rw [hout, hinitial]
      exact .first e hopen
    · intro e' he'
      cases he'
      exact le_refl _

end LiveBa

namespace LiveWorld

variable {K : Type} [DecidableEq K]

theorem history_step {w : LiveWorld K} (h : w.live.History) (fl : ℚ → ℚ) (op : LiveOp K) :
    (w.step fl op).live.History := by
  cases op with
  | add_impact k =>
    show (w.live.add_impact k (w.report k)).History
    unfold LiveBa.add_impact
    split
    · exact h
    · refine LiveBa.History.raise ?_ _
      exact h.mono rfl rfl rfl (le_refl _)
  | child_has_update k r now =>
    show (w.live.child_has_update fl (Function.update w.report k r) k now).History
    unfold LiveBa.child_has_update
    split
    · refine LiveBa.History.visit ?_ _ _ _
      refine LiveBa.History.compute_inherited_downtime ?_ _ _
      exact (h.raise _).mono rfl rfl rfl (le_refl _)
    · exact h
  | remove_impact k => exact h.mono rfl rfl rfl (le_refl _)
  | service_update dt now =>
    show (w.live.service_update fl w.report dt now).History
    unfold LiveBa.service_update
    split
    · dsimp only
      split
      · refine LiveBa.History.visit ?_ _ _ _
        exact h.mono rfl rfl rfl (le_refl _)
      · exact h
    · exact h
  | set_initial_event e hopen => exact h.set_initial_event hopen
  | visit now => exact h.visit fl w.report now

theorem history_run {w : LiveWorld K} (h : w.live.History) (fl : ℚ → ℚ) (ops : List (LiveOp K)) :
    (w.run fl ops).live.History := by
  induction ops generalizing w with
  | nil => exact h
  | cons op ops ih => exact ih (history_step h fl op)

/-- **The events that a BA writes are a timeline**, in every run of a new BA. -/
theorem events_timeline (fl : ℚ → ℚ) (c : Config) (id host_id service_id : ℕ)
    (generate_virtual_status : Bool) (report : K → KpiReport) (ops : List (LiveOp K)) :
    ∃ last, Timeline (baEvents
      ((LiveWorld.mk report (.init c id host_id service_id generate_virtual_status)).run
        fl ops).live.out) last := by
  have h := @history_run K _
    (LiveWorld.mk report (.init c id host_id service_id generate_virtual_status))
    (LiveBa.History.init c id host_id service_id generate_virtual_status) fl ops
  rcases h.initial with hnone | hnone
  · have htimeline := h.timeline
    rw [hnone, List.append_nil] at htimeline
    exact ⟨_, htimeline⟩
  · rw [hnone]
    exact ⟨none, .nil⟩

end LiveWorld

end CentreonBroker.Bam.Visit
