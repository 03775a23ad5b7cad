import CentreonBroker.Bam.ReportingCount

/-!
# The reporting stream over a connection that is opened again

The constructor loads the time periods from the dimension tables, then ends the events that were
left open. A run is a sequence of calls of the stream, in which it may be destroyed and built
again; a call that throws has no result.
-/

namespace CentreonBroker.Bam

open Time (Timeperiod)

/-- `_load_timeperiods`. -/
def TimeperiodMap.load (d : Dimensions) : Option TimeperiodMap :=
  (d.timeperiods.foldlM apply_timeperiod TimeperiodMap.new).map fun m =>
    d.relations_ba_timeperiods.foldl add_relation
      (d.timeperiods_exclusions.foldl apply_exclusion
        (d.timeperiods_exceptions.foldl apply_exception m))

namespace Tables

/-- The BA, the start and the end of each event. -/
def baEvents (t : Tables) : List (ℕ × ℤ × Option ℤ) :=
  t.ba_events.map fun e => (e.2.ba_id, e.2.start_time, e.2.end_time)

def kpiEvents (t : Tables) : List (ℕ × ℤ × Option ℤ) :=
  t.kpi_events.map fun e => (e.2.kpi_id, e.2.start_time, e.2.end_time)

end Tables

/-- The open events that are not the last of their BA or KPI. -/
def inconsistentEvents (events : List (ℕ × ℤ × Option ℤ)) : List (ℕ × ℤ) :=
  (events.filter fun e =>
    e.2.2 = none ∧ events.any fun e' => e'.1 = e.1 ∧ e.2.1 < e'.2.1).map fun e => (e.1, e.2.1)

/-- The start of the event that follows. -/
def nextStart (events : List (ℕ × ℤ × Option ℤ)) (e : ℕ × ℤ) : Option ℤ :=
  ((events.filter fun e' => e'.1 = e.1 ∧ e.2 < e'.2.1).map (·.2.1)).min?

namespace ReportingStream

/-- `_close_inconsistent_events`, on the events of BAs or of KPIs. -/
def close_inconsistent_events (events : Tables → List (ℕ × ℤ × Option ℤ))
    (close : ℕ → ℤ → ℤ → Statement) (s : ReportingStream) : Option ReportingStream :=
  (inconsistentEvents (events s.mysql.tables)).foldlM (fun s e =>
    (nextStart (events s.mysql.tables) e).bind fun end_time =>
      s.run_statement true (close e.1 e.2 end_time)) s

def close_all_events (now : ℤ) (s : ReportingStream) : Option ReportingStream :=
  (s.run_statement false (.close_ba_events now)).bind fun s =>
    s.run_statement false (.close_kpi_events now)

/-- The connection is opened again: the stream is destroyed, which commits what was run, and the
constructor is run. -/
def reopen (now : ℤ) (s : ReportingStream) : Option ReportingStream := do
  let mysql : Database := .new s.mysql.commit.durable s.mysql.commit.replies
  let timeperiods ← TimeperiodMap.load mysql.tables.dimensions
  let s := connected mysql timeperiods
  let s ← close_inconsistent_events Tables.baEvents .close_ba_event s
  let s ← close_inconsistent_events Tables.kpiEvents .close_kpi_event s
  close_all_events now s

/-! ## Runs -/

inductive Act where
  | write (data : Option Event)
  | flush
  | reopen (now : ℤ)

section

variable (offset : ℤ) (duration_intersect : Timeperiod → ℤ → ℤ → ℕ)

def act : Act → ReportingStream → Option ReportingStream
  | .write data, s => (write offset duration_intersect data s).map (·.2)
  | .flush, s => some s.flush.2
  | .reopen now, s => s.reopen now

def runs : List Act → ReportingStream → Option ReportingStream
  | [], s => some s
  | a :: acts, s => (act offset duration_intersect a s).bind (runs acts)

end

/-! ## What leaves the dimensions alone -/

/-- The dimension tables, the time periods and the dump that is kept are as before, and the server
goes on to do what it is asked for. -/
structure Frame (s s' : ReportingStream) : Prop where
  served : s'.mysql.Served
  dimensions : s'.mysql.tables.dimensions = s.mysql.tables.dimensions
  durable : s.mysql.durable.dimensions = s.mysql.tables.dimensions →
    s'.mysql.durable.dimensions = s'.mysql.tables.dimensions
  timeperiods : s'.timeperiods = s.timeperiods
  cache : s'.dimension_data_cache = s.dimension_data_cache
  processing : s'.processing_dimensions = s.processing_dimensions

variable {s s₁ s' : ReportingStream} {st : Statement} {fatal : Bool}

theorem Frame.refl (hserved : s.mysql.Served) : Frame s s := ⟨hserved, rfl, id, rfl, rfl, rfl⟩

theorem Frame.trans (h : Frame s s₁) (h' : Frame s₁ s') : Frame s s' where
  served := h'.served
  dimensions := h'.dimensions.trans h.dimensions
  durable := h'.durable ∘ h.durable
  timeperiods := h'.timeperiods.trans h.timeperiods
  cache := h'.cache.trans h.cache
  processing := h'.processing.trans h.processing

end ReportingStream

namespace Statement

/-- The statements on the dimension tables. -/
def IsDimension : Statement → Prop
  | dimension_truncate _ | dimension_insert _ => True
  | _ => False

end Statement

theorem Tables.exec_dimensions {t t' : Tables} {st : Statement} {answer : Answer}
    (h : t.exec st = some (answer, t')) (hst : ¬ st.IsDimension) :
    t'.dimensions = t.dimensions := by
  cases st with
  | dimension_truncate table => exact absurd trivial hst
  | dimension_insert row => exact absurd trivial hst
  | ba_duration_event_insert row ba_id real_start_time =>
    unfold exec at h
    dsimp only at h
    split at h
    · cases h
    · cases h
      rfl
  | _ =>
    cases h
    rfl

namespace ReportingStream

variable {s s₁ s' : ReportingStream} {st : Statement} {fatal : Bool}

theorem durable_answered (hserved : s.mysql.Served)
    (h : s.mysql.durable.dimensions = s.mysql.tables.dimensions) :
    s.mysql.answered.durable.dimensions = s.mysql.tables.dimensions := by
  obtain ⟨-, hbefore⟩ := Mysql.Session.good_reply hserved
  unfold Mysql.Session.answered
  dsimp only
  split
  · exact h
  · rfl
  · rename_i hrolledBack
    exact absurd hrolledBack hbefore

/-- A commit leaves the dimension tables in the database as they are seen. -/
theorem durable_commit (hserved : s.mysql.Served)
    (h : s.mysql.durable.dimensions = s.mysql.tables.dimensions) :
    s.mysql.commit.durable.dimensions = s.mysql.tables.dimensions ∧
      s.mysql.commit.tables = s.mysql.tables := by
  have htables := (Mysql.Session.served_answered hserved).2
  unfold Mysql.Session.commit
  split
  · rw [if_pos (Mysql.Session.good_reply hserved).1]
    exact ⟨congrArg Tables.dimensions htables, htables⟩
  · exact ⟨h, rfl⟩

theorem frame_executed {tables : Tables} {answer : Answer} (hserved : s.mysql.Served)
    (hexec : s.mysql.attempt Tables.exec st = some (answer, tables)) (hst : ¬ st.IsDimension) :
    Frame s { s with mysql := s.mysql.answered.executed st tables } := by
  rw [Mysql.Session.attempt_eq _ hserved] at hexec
  have hdims := Tables.exec_dimensions hexec hst
  exact ⟨(Mysql.Session.served_answered hserved).1, hdims,
    fun h => (durable_answered hserved h).trans hdims.symm, rfl, rfl, rfl⟩

theorem frame_run {r : Answer × ReportingStream} (hserved : s.mysql.Served)
    (h : s.run st = some r) (hst : ¬ st.IsDimension) : Frame s r.2 := by
  obtain ⟨tables, hexec, hr⟩ := run_eq h
  rw [hr]
  exact frame_executed hserved hexec hst

theorem frame_run_statement (hserved : s.mysql.Served) (h : s.run_statement fatal st = some s')
    (hst : ¬ st.IsDimension) : Frame s s' := by
  obtain ⟨mysql, hrun, rfl⟩ := Option.map_eq_some_iff.mp h
  rcases Mysql.Session.run_statement_eq hrun with ⟨r, hexec, rfl⟩ | ⟨-, rfl⟩
  · exact frame_executed hserved hexec hst
  · obtain ⟨hserved', htables⟩ := Mysql.Session.served_answered hserved
    refine ⟨hserved', congrArg Tables.dimensions htables, fun hdurable => ?_, rfl, rfl, rfl⟩
    exact (durable_answered hserved hdurable).trans (congrArg Tables.dimensions htables).symm

/-- A loop whose steps leave the dimensions alone. -/
theorem frame_foldlM {α : Type} {f : ReportingStream → α → Option ReportingStream} (l : List α)
    (hf : ∀ s a s', s.mysql.Served → f s a = some s' → Frame s s') (hserved : s.mysql.Served)
    (h : l.foldlM f s = some s') : Frame s s' := by
  induction l generalizing s with
  | nil =>
    cases h
    exact .refl hserved
  | cons a l ih =>
    rw [List.foldlM_cons] at h
    obtain ⟨s₁, hstep, h⟩ := Option.bind_eq_some_iff.mp h
    have hframe := hf s a s₁ hserved hstep
    exact hframe.trans (ih hframe.served h)

theorem frame_kpi_event {ke : KpiEvent} (hserved : s.mysql.Served)
    (h : process_kpi_event ke s = some s') : Frame s s' := by
  unfold process_kpi_event at h
  obtain ⟨⟨answer, s₁⟩, hupdate, h⟩ := Option.bind_eq_some_iff.mp h
  have hframe := frame_run hserved hupdate id
  dsimp only at h
  split at h
  · obtain ⟨s₂, hinsert, h⟩ := Option.bind_eq_some_iff.mp h
    obtain ⟨⟨answer₂, s₃⟩, hlink, h⟩ := Option.bind_eq_some_iff.mp h
    cases h
    have hinserted := hframe.trans (frame_run_statement hframe.served hinsert id)
    have hlinked := hinserted.trans (frame_run hinserted.served hlink id)
    exact ⟨hlinked.served, hlinked.dimensions, hlinked.durable, hlinked.timeperiods,
      hlinked.cache, hlinked.processing⟩
  · cases h
    exact hframe

theorem frame_ba_duration_event {bde : BaDurationEvent} (hserved : s.mysql.Served)
    (h : process_ba_duration_event bde s = some s') : Frame s s' := by
  unfold process_ba_duration_event at h
  obtain ⟨⟨answer, s₁⟩, hupdate, h⟩ := Option.bind_eq_some_iff.mp h
  have hframe := frame_run hserved hupdate id
  dsimp only at h
  split at h
  · exact hframe.trans (frame_run_statement hframe.served h id)
  · cases h
    exact hframe

theorem frame_relink {be : BaEvent} {newba : ℕ} (hserved : s.mysql.Served)
    (h : relink be newba s = some s') : Frame s s' := by
  unfold relink at h
  split at h
  · obtain ⟨s₁, hupdate, h⟩ := Option.bind_eq_some_iff.mp h
    cases h
    have hframe := frame_run_statement hserved hupdate id
    exact ⟨hframe.served, hframe.dimensions, hframe.durable, hframe.timeperiods, hframe.cache,
      hframe.processing⟩
  · cases h
    exact ⟨hserved, rfl, id, rfl, rfl, rfl⟩

theorem frame_store_ba_event {be : BaEvent} (hserved : s.mysql.Served)
    (h : store_ba_event be s = some s') : Frame s s' := by
  unfold store_ba_event at h
  obtain ⟨⟨answer, s₁⟩, hupdate, h⟩ := Option.bind_eq_some_iff.mp h
  have hframe := frame_run hserved hupdate id
  dsimp only at h
  split at h
  · obtain ⟨⟨answer₂, s₂⟩, hinsert, h⟩ := Option.bind_eq_some_iff.mp h
    have hinserted := hframe.trans (frame_run hframe.served hinsert id)
    exact hinserted.trans (frame_relink hinserted.served h)
  · cases h
    exact hframe

section

variable {offset : ℤ} {duration_intersect : Timeperiod → ℤ → ℤ → ℕ}

theorem frame_compute {ev : BaEvent} (hserved : s.mysql.Served)
    (h : compute_event_durations offset duration_intersect ev s = some s') : Frame s s' := by
  obtain ⟨timeperiods, -, hfold⟩ := Option.bind_eq_some_iff.mp h
  refine frame_foldlM timeperiods (fun s tp s' hserved hstep => ?_) hserved hfold
  split at hstep
  · obtain ⟨r, hself, rfl⟩ := Option.map_eq_some_iff.mp hstep
    obtain ⟨s₂, hprocess, rfl⟩ := Option.map_eq_some_iff.mp hself
    have hframe := frame_ba_duration_event (s := s.account) hserved hprocess
    exact ⟨hframe.served, hframe.dimensions, hframe.durable, hframe.timeperiods, hframe.cache,
      hframe.processing⟩
  · cases hstep
    exact .refl hserved

theorem frame_ba_event {be : BaEvent} (hserved : s.mysql.Served)
    (h : process_ba_event offset duration_intersect be s = some s') : Frame s s' := by
  obtain ⟨s₁, hstore, h⟩ := Option.bind_eq_some_iff.mp h
  have hframe := frame_store_ba_event hserved hstore
  split at h
  · exact hframe.trans (frame_compute hframe.served h)
  · cases h
    exact hframe

theorem frame_rebuild {bas_to_rebuild : List ℕ} (hserved : s.mysql.Served)
    (h : process_rebuild offset duration_intersect bas_to_rebuild s = some s') :
    Frame s s' := by
  unfold process_rebuild at h
  split at h
  · cases h
    exact .refl hserved
  · obtain ⟨s₁, hdelete, h⟩ := Option.bind_eq_some_iff.mp h
    obtain ⟨s₂, hchecked, h⟩ := Option.bind_eq_some_iff.mp h
    obtain ⟨mysql, hmysql, hs₂⟩ := Option.map_eq_some_iff.mp hchecked
    rw [Mysql.Session.check_errors_eq hmysql] at hs₂
    cases hs₂
    have hframe := frame_run_statement hserved hdelete id
    exact hframe.trans
      (frame_foldlM _ (fun s ev s' hserved hstep => frame_compute hserved hstep) hframe.served h)

end

theorem frame_close_inconsistent {events : Tables → List (ℕ × ℤ × Option ℤ)}
    {close : ℕ → ℤ → ℤ → Statement} (hclose : ∀ id t t', ¬ (close id t t').IsDimension)
    (hserved : s.mysql.Served) (h : close_inconsistent_events events close s = some s') :
    Frame s s' := by
  refine frame_foldlM _ (fun s e s' hserved hstep => ?_) hserved h
  obtain ⟨end_time, -, hrun⟩ := Option.bind_eq_some_iff.mp hstep
  exact frame_run_statement hserved hrun (hclose _ _ _)

/-- The constructor leaves the dimension tables as they are in the database. -/
theorem reopen_spec {now : ℤ} (hserved : s.mysql.Served) (h : s.reopen now = some s')
    (hdurable : s.mysql.durable.dimensions = s.mysql.tables.dimensions) :
    s'.mysql.Served ∧ TimeperiodMap.load s.mysql.tables.dimensions = some s'.timeperiods ∧
      s'.mysql.tables.dimensions = s.mysql.tables.dimensions ∧
      s'.mysql.durable.dimensions = s'.mysql.tables.dimensions ∧
      s'.dimension_data_cache = [] ∧ s'.processing_dimensions = false := by
  obtain ⟨hcommitted, -⟩ := durable_commit hserved hdurable
  unfold reopen at h
  obtain ⟨timeperiods, hload, h⟩ := Option.bind_eq_some_iff.mp h
  obtain ⟨s₁, hba, h⟩ := Option.bind_eq_some_iff.mp h
  obtain ⟨s₂, hkpi, h⟩ := Option.bind_eq_some_iff.mp h
  obtain ⟨s₃, hba_all, hkpi_all⟩ := Option.bind_eq_some_iff.mp h
  have hnew : (connected (.new s.mysql.commit.durable s.mysql.commit.replies)
      timeperiods).mysql.Served := Mysql.Session.served_commit hserved
  have hbas := frame_close_inconsistent (fun _ _ _ => id) hnew hba
  have hkpis := hbas.trans (frame_close_inconsistent (fun _ _ _ => id) hbas.served hkpi)
  have hall := hkpis.trans (frame_run_statement hkpis.served hba_all id)
  have hframe := hall.trans (frame_run_statement hall.served hkpi_all id)
  refine ⟨hframe.served, ?_, hframe.dimensions.trans hcommitted, hframe.durable rfl,
    hframe.cache, hframe.processing⟩
  rw [hframe.timeperiods, ← hcommitted]
  exact hload

end ReportingStream

end CentreonBroker.Bam
