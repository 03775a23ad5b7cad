import CentreonBroker.Bam.ReportingStream
import CentreonBroker.Lib.Sink

/-!
# What the reporting stream counts

A write counts one pending event, and one more for each duration event that the stream writes to
itself. What it runs is to be committed; where the server does what it is asked for, no fatal
statement fails.
-/

namespace CentreonBroker.Bam.ReportingStream

open Time (Timeperiod)

/-- The stream goes from a state to another, and `m` events are counted on the way. -/
structure Goes (m : ℕ) (s s' : ReportingStream) : Prop where
  ack : s.ack_events = 0 → s'.ack_events = 0
  pending : s'.pending_events = s.pending_events + m
  grows : s.mysql.Grows s'.mysql
  served : s.mysql.Served → s'.mysql.Served
  sound : s.mysql.Sound → s'.mysql.Sound

/-- The time periods are left as they are. -/
structure Keeps (m : ℕ) (s s' : ReportingStream) : Prop extends Goes m s s' where
  timeperiods : s'.timeperiods = s.timeperiods

variable {s s₁ s' : ReportingStream} {m m' : ℕ} {st : Statement} {fatal : Bool}

theorem Goes.refl (s : ReportingStream) : Goes 0 s s := ⟨id, rfl, .refl _, id, id⟩

theorem Goes.trans (h : Goes m s s₁) (h' : Goes m' s₁ s') : Goes (m + m') s s' where
  ack := h'.ack ∘ h.ack
  pending := by rw [h'.pending, h.pending, Nat.add_assoc]
  grows := h.grows.trans h'.grows
  served := h'.served ∘ h.served
  sound := h'.sound ∘ h.sound

/-- Only what is counted matters, and what is in the database. -/
theorem Goes.of_eq (h : Goes m s s₁) (hack : s'.ack_events = s₁.ack_events)
    (hpending : s'.pending_events = s₁.pending_events) (hmysql : s'.mysql = s₁.mysql) :
    Goes m s s' where
  ack := hack ▸ h.ack
  pending := hpending ▸ h.pending
  grows := hmysql ▸ h.grows
  served := hmysql ▸ h.served
  sound := hmysql ▸ h.sound

theorem Keeps.refl (s : ReportingStream) : Keeps 0 s s := ⟨.refl s, rfl⟩

theorem Keeps.trans (h : Keeps m s s₁) (h' : Keeps m' s₁ s') : Keeps (m + m') s s' :=
  ⟨h.toGoes.trans h'.toGoes, h'.timeperiods.trans h.timeperiods⟩

theorem Keeps.of_eq (h : Keeps m s s₁) (hack : s'.ack_events = s₁.ack_events)
    (hpending : s'.pending_events = s₁.pending_events) (hmysql : s'.mysql = s₁.mysql)
    (htimeperiods : s'.timeperiods = s₁.timeperiods) : Keeps m s s' :=
  ⟨h.toGoes.of_eq hack hpending hmysql, htimeperiods.trans h.timeperiods⟩

/-! ## Statements -/

theorem run_eq {r : Answer × ReportingStream} (h : s.run st = some r) :
    ∃ tables, s.mysql.attempt Tables.exec st = some (r.1, tables) ∧
      r.2 = { s with mysql := s.mysql.answered.executed st tables } := by
  obtain ⟨⟨answer, mysql⟩, hrun, rfl⟩ := Option.map_eq_some_iff.mp h
  obtain ⟨tables, hattempt, hmysql⟩ := Mysql.Session.run_and_get_eq hrun
  dsimp only at hattempt hmysql ⊢
  exact ⟨tables, hattempt, by rw [hmysql]⟩

theorem keeps_executed (s : ReportingStream) (st : Statement) (tables : Tables) :
    Keeps 0 s { s with mysql := s.mysql.answered.executed st tables } where
  ack := id
  pending := rfl
  grows := (Mysql.Session.grows_answered _).trans (Mysql.Session.grows_executed ..)
  served h := (Mysql.Session.served_answered h).1
  sound h := h.answered.executed st tables
  timeperiods := rfl

theorem keeps_run {r : Answer × ReportingStream} (h : s.run st = some r) : Keeps 0 s r.2 := by
  obtain ⟨tables, -, hr⟩ := run_eq h
  rw [hr]
  exact keeps_executed s st tables

/-- No key of the tables refuses a statement that is fatal. -/
theorem keeps_run_statement (h : s.run_statement fatal st = some s')
    (hst : fatal = true → (s.mysql.tables.exec st).isSome = true) : Keeps 0 s s' := by
  obtain ⟨mysql, hrun, rfl⟩ := Option.map_eq_some_iff.mp h
  rcases Mysql.Session.run_statement_eq hrun with ⟨r, -, rfl⟩ | ⟨hnone, rfl⟩
  · exact keeps_executed s st r.2
  · refine ⟨⟨id, rfl, Mysql.Session.grows_failed .., fun hserved =>
      (Mysql.Session.served_answered hserved).1, fun hsound => ?_⟩, rfl⟩
    cases fatal with
    | false => exact hsound.failed st
    | true =>
      rw [Mysql.Session.attempt_eq _ hsound.served] at hnone
      have hsome := hst rfl
      rw [hnone] at hsome
      cases hsome

theorem goes_commit (s : ReportingStream) : Goes 0 s s.commit :=
  ⟨id, rfl, Mysql.Session.grows_commit _, Mysql.Session.served_commit, fun h => h.commit.1⟩

/-! ## Events -/

theorem goes_dimension_dispatch (ds : List Dimension) (s : ReportingStream) :
    Goes 0 s (dimension_dispatch ds s) := by
  induction ds generalizing s with
  | nil => exact .refl _
  | cons d ds ih =>
    unfold dimension_dispatch
    split
    · exact .refl _
    · rename_i s₁ hrun
      have hgoes := (keeps_run_statement hrun nofun).toGoes
      split
      · rename_i timeperiods _
        have hlearnt : Goes 0 s₁ { s₁ with timeperiods := timeperiods } :=
          (Goes.refl s₁).of_eq rfl rfl rfl
        exact hgoes.trans (hlearnt.trans (ih _))
      · exact hgoes

theorem goes_truncate_tables (tables : List Truncated)
    (h : tables.foldlM (fun s t => s.run_statement false (.dimension_truncate t)) s = some s') :
    Goes 0 s s' := by
  induction tables generalizing s with
  | nil =>
    cases h
    exact .refl _
  | cons t tables ih =>
    rw [List.foldlM_cons] at h
    obtain ⟨s₁, hrun, h⟩ := Option.bind_eq_some_iff.mp h
    exact (keeps_run_statement hrun nofun).toGoes.trans (ih h)

theorem goes_truncate_signal (update_started : Bool)
    (h : process_dimension_truncate_signal update_started s = some s') : Goes 0 s s' := by
  unfold process_dimension_truncate_signal at h
  split at h
  · cases h
    exact (Goes.refl s).of_eq rfl rfl rfl
  · obtain ⟨s₁, htruncate, h⟩ := Option.bind_eq_some_iff.mp h
    cases h
    have hstart : Goes 0 s { s₁ with timeperiods := TimeperiodMap.new } :=
      (goes_truncate_tables _ htruncate).of_eq rfl rfl rfl
    have hend := hstart.trans
      ((goes_dimension_dispatch s₁.dimension_data_cache _).trans (goes_commit _))
    exact hend.of_eq rfl rfl rfl

theorem keeps_kpi_event {ke : KpiEvent} (h : process_kpi_event ke s = some s') : Keeps 0 s s' := by
  unfold process_kpi_event at h
  obtain ⟨⟨answer, s₁⟩, hupdate, h⟩ := Option.bind_eq_some_iff.mp h
  have hkeeps := keeps_run hupdate
  dsimp only at h
  split at h
  · obtain ⟨s₂, hinsert, h⟩ := Option.bind_eq_some_iff.mp h
    obtain ⟨⟨answer₂, s₃⟩, hlink, h⟩ := Option.bind_eq_some_iff.mp h
    cases h
    have hlast := hkeeps.trans ((keeps_run_statement hinsert fun _ => rfl).trans (keeps_run hlink))
    exact hlast.of_eq rfl rfl rfl rfl
  · cases h
    exact hkeeps

/-- Where no row is updated, none is in the way of an insertion. -/
theorem isSome_duration_insert {t t' : Tables} {row : DurationRow} {ba_id : ℕ} {start_time : ℤ}
    {answer : Answer}
    (h : t.exec (.ba_duration_event_update row ba_id start_time) = some (answer, t'))
    (hnone : answer.affected_rows = 0) :
    (t'.exec (.ba_duration_event_insert row ba_id start_time)).isSome = true := by
  cases h
  have hrows := List.countP_eq_zero.mp hnone
  unfold Tables.exec
  dsimp only
  rw [if_neg ?_]
  · rfl
  · intro hany
    obtain ⟨d, hd, hupdated⟩ := List.any_eq_true.mp hany
    obtain ⟨d₀, hd₀, rfl⟩ := List.mem_map.mp hd
    rw [if_neg (hrows d₀ hd₀)] at hupdated
    exact hrows d₀ hd₀ hupdated

theorem keeps_ba_duration_event {bde : BaDurationEvent}
    (h : process_ba_duration_event bde s = some s') : Keeps 0 s s' := by
  unfold process_ba_duration_event at h
  obtain ⟨⟨answer, s₁⟩, hupdate, h⟩ := Option.bind_eq_some_iff.mp h
  have hkeeps := keeps_run hupdate
  obtain ⟨tables, hattempt, hs₁⟩ := run_eq hupdate
  dsimp only at h hattempt hs₁
  split at h
  · rename_i hnone
    refine hkeeps.trans (keeps_run_statement h fun _ => ?_)
    unfold Mysql.Session.attempt at hattempt
    split at hattempt
    · rw [hs₁]
      exact isSome_duration_insert hattempt hnone
    · cases hattempt
  · cases h
    exact hkeeps

/-- A duration event that the stream writes to itself is counted. -/
theorem keeps_write_ba_duration_event {bde : BaDurationEvent} {r : ℕ × ReportingStream}
    (h : write_ba_duration_event bde s = some r) : Keeps 1 s r.2 := by
  obtain ⟨s₁, hprocess, rfl⟩ := Option.map_eq_some_iff.mp h
  have hkeeps := keeps_ba_duration_event hprocess
  exact ⟨⟨fun _ => rfl, hkeeps.pending, hkeeps.grows, hkeeps.served, hkeeps.sound⟩,
    hkeeps.timeperiods⟩

variable (offset : ℤ) (duration_intersect : Timeperiod → ℤ → ℤ → ℕ)

/-- The duration events that the stream writes to itself for an event. -/
def selfWrites (timeperiods : TimeperiodMap) (ev : BaEvent) : List BaDurationEvent :=
  ((timeperiods.get_timeperiods_by_ba_id ev.ba_id).getD []).filterMap fun tp =>
    durationOn offset duration_intersect ev tp.1 tp.2

/-- How many duration events the stream writes to itself while it handles an event. -/
def derived (data : Option Event) (s : ReportingStream) : ℕ :=
  match data with
  | some (.ba_event be) =>
    if ¬ isNull be.end_time ∧ be.start_time ≠ be.end_time then
      (selfWrites offset duration_intersect s.timeperiods be).length
    else 0
  | some (.rebuild bas_to_rebuild) =>
    ((s.closedEvents bas_to_rebuild).flatMap
      (selfWrites offset duration_intersect s.timeperiods)).length
  | _ => 0

variable {offset duration_intersect}

theorem keeps_durations {ev : BaEvent} (timeperiods : List (Period × Bool))
    (h : timeperiods.foldlM (fun s tp =>
      match durationOn offset duration_intersect ev tp.1 tp.2 with
      | some dur_ev => (write_ba_duration_event dur_ev s).map (·.2)
      | none => some s) s = some s') :
    Keeps (timeperiods.filterMap fun tp =>
      durationOn offset duration_intersect ev tp.1 tp.2).length s s' := by
  induction timeperiods generalizing s with
  | nil =>
    cases h
    exact .refl _
  | cons tp timeperiods ih =>
    rw [List.foldlM_cons] at h
    obtain ⟨s₁, hwrite, h⟩ := Option.bind_eq_some_iff.mp h
    rw [List.filterMap_cons]
    split at hwrite
    · rename_i dur_ev hdur
      obtain ⟨r, hself, rfl⟩ := Option.map_eq_some_iff.mp hwrite
      rw [hdur, List.length_cons, Nat.add_comm]
      exact (keeps_write_ba_duration_event hself).trans (ih h)
    · rename_i hdur
      cases hwrite
      rw [hdur]
      exact ih h

theorem keeps_compute {ev : BaEvent}
    (h : compute_event_durations offset duration_intersect ev s = some s') :
    Keeps (selfWrites offset duration_intersect s.timeperiods ev).length s s' := by
  obtain ⟨timeperiods, htimeperiods, h⟩ := Option.bind_eq_some_iff.mp h
  unfold selfWrites
  rw [htimeperiods]
  exact keeps_durations timeperiods h

theorem keeps_computes (evs : List BaEvent)
    (h : evs.foldlM (fun s ev => compute_event_durations offset duration_intersect ev s) s =
      some s') :
    Keeps (evs.flatMap (selfWrites offset duration_intersect s.timeperiods)).length s s' := by
  induction evs generalizing s with
  | nil =>
    cases h
    exact .refl _
  | cons ev evs ih =>
    rw [List.foldlM_cons] at h
    obtain ⟨s₁, hcompute, h⟩ := Option.bind_eq_some_iff.mp h
    have hkeeps := keeps_compute hcompute
    have hrest := ih h
    rw [hkeeps.timeperiods] at hrest
    rw [List.flatMap_cons, List.length_append]
    exact hkeeps.trans hrest

theorem keeps_relink {be : BaEvent} {newba : ℕ} (h : relink be newba s = some s') :
    Keeps 0 s s' := by
  unfold relink at h
  split at h
  · obtain ⟨s₁, hupdate, h⟩ := Option.bind_eq_some_iff.mp h
    cases h
    exact (keeps_run_statement hupdate fun _ => rfl).of_eq rfl rfl rfl rfl
  · cases h
    exact (Keeps.refl s).of_eq rfl rfl rfl rfl

theorem keeps_store_ba_event {be : BaEvent} (h : store_ba_event be s = some s') :
    Keeps 0 s s' := by
  unfold store_ba_event at h
  obtain ⟨⟨answer, s₁⟩, hupdate, h⟩ := Option.bind_eq_some_iff.mp h
  have hkeeps := keeps_run hupdate
  dsimp only at h
  split at h
  · obtain ⟨⟨answer₂, s₂⟩, hinsert, hrelink⟩ := Option.bind_eq_some_iff.mp h
    exact hkeeps.trans ((keeps_run hinsert).trans (keeps_relink hrelink))
  · cases h
    exact hkeeps

theorem keeps_ba_event {be : BaEvent}
    (h : process_ba_event offset duration_intersect be s = some s') :
    Keeps (derived offset duration_intersect (some (.ba_event be)) s) s s' := by
  obtain ⟨s₁, hstore, h⟩ := Option.bind_eq_some_iff.mp h
  have hkeeps := keeps_store_ba_event hstore
  unfold derived
  dsimp only
  split at h
  · rename_i hended
    rw [if_pos hended, ← hkeeps.timeperiods, ← Nat.zero_add (List.length _)]
    exact hkeeps.trans (keeps_compute h)
  · rename_i hended
    cases h
    rw [if_neg hended]
    exact hkeeps

theorem keeps_rebuild {bas_to_rebuild : List ℕ} (hserved : s.mysql.Served)
    (h : process_rebuild offset duration_intersect bas_to_rebuild s = some s') :
    Keeps (derived offset duration_intersect (some (.rebuild bas_to_rebuild)) s) s s' := by
  unfold process_rebuild at h
  split at h
  · rename_i hempty
    cases h
    have hnone : s.closedEvents bas_to_rebuild = [] := by
      unfold closedEvents
      rw [List.filterMap_eq_nil_iff]
      intro e _
      rw [hempty, if_neg List.not_mem_nil]
    unfold derived
    dsimp only
    rw [hnone]
    exact .refl s
  · obtain ⟨s₁, hdelete, h⟩ := Option.bind_eq_some_iff.mp h
    obtain ⟨s₂, hchecked, h⟩ := Option.bind_eq_some_iff.mp h
    obtain ⟨mysql, hmysql, hs₂⟩ := Option.map_eq_some_iff.mp hchecked
    rw [Mysql.Session.check_errors_eq hmysql] at hs₂
    cases hs₂
    have hkeeps := keeps_run_statement hdelete fun _ => rfl
    -- the events are those of the state before
    have hclosed : s₁.closedEvents bas_to_rebuild = s.closedEvents bas_to_rebuild := by
      obtain ⟨mysql, hrun, rfl⟩ := Option.map_eq_some_iff.mp hdelete
      have hattempt := Mysql.Session.attempt_eq Tables.exec hserved
        (.delete_durations bas_to_rebuild)
      rcases Mysql.Session.run_statement_eq hrun with ⟨r, hr, rfl⟩ | ⟨hnone, -⟩
      · rw [hattempt] at hr
        cases hr
        rfl
      · rw [hattempt] at hnone
        cases hnone
    unfold derived
    dsimp only at h ⊢
    rw [← hclosed, ← hkeeps.timeperiods, ← Nat.zero_add (List.length _)]
    exact hkeeps.trans (keeps_computes _ h)

theorem goes_process {data : Event} (hserved : s.mysql.Served)
    (h : process offset duration_intersect data s = some s') :
    Goes (derived offset duration_intersect (some data) s) s s' := by
  cases data with
  | kpi_event ke => exact (keeps_kpi_event h).toGoes
  | ba_event be => exact (keeps_ba_event h).toGoes
  | ba_duration_event bde => exact (keeps_ba_duration_event h).toGoes
  | dimension_truncate_table_signal update_started => exact goes_truncate_signal _ h
  | dimension d =>
    cases h
    unfold process_dimension
    split
    · exact (Goes.refl s).of_eq rfl rfl rfl
    · exact .refl _
  | rebuild bas_to_rebuild => exact (keeps_rebuild hserved h).toGoes
  | other =>
    cases h
    exact .refl _

/-- What a write counts: the event, and those that the stream writes to itself. -/
theorem goes_write {data : Option Event} {n : ℕ}
    (h : write offset duration_intersect data s = some (n, s')) (hack : s.ack_events = 0)
    (hserved : s.mysql.Served) : n = 0 ∧ Goes (1 + derived offset duration_intersect data s) s s' := by
  have haccount : Goes 1 s s.account := ⟨id, rfl, .refl _, id, id⟩
  cases data with
  | none =>
    cases h
    exact ⟨rfl, haccount⟩
  | some data =>
    obtain ⟨s₁, hprocess, h⟩ := Option.map_eq_some_iff.mp h
    cases h
    have hgoes := haccount.trans (goes_process hserved hprocess)
    have hderived : derived offset duration_intersect (some data) s.account =
        derived offset duration_intersect (some data) s := by
      cases data <;> rfl
    rw [hderived] at hgoes
    exact ⟨hgoes.ack hack,
      ⟨fun _ => rfl, hgoes.pending, hgoes.grows, hgoes.served, hgoes.sound⟩⟩

/-! ## Accounting -/

variable (offset duration_intersect)

def sink : Sink (Option Event) ReportingStream Statement where
  write := write offset duration_intersect
  flush s := some s.flush
  pending s := s.pending_events
  output s := s.mysql.asked
  sent s := s.mysql.committed

/-- The stream writes nothing to itself. -/
def WritesNothing (c : Sink.Call (Option Event)) (s : ReportingStream) : Prop :=
  match c with
  | .write data => derived offset duration_intersect data s = 0
  | .flush => True

/-- No acknowledgement waits, and what there is to commit is committed or in the transaction. -/
structure Ready (s : ReportingStream) : Prop where
  ack : s.ack_events = 0
  sound : s.mysql.Sound

variable {offset duration_intersect}

theorem law : (sink offset duration_intersect).Law Ready
    (WritesNothing offset duration_intersect) where
  fair := by
    intro c s n s' hready hnothing h
    cases c with
    | write data =>
      obtain ⟨rfl, hgoes⟩ := goes_write h hready.ack hready.sound.served
      have hderived : derived offset duration_intersect data s = 0 := hnothing
      rw [hderived, Nat.add_zero] at hgoes
      have hasked := (hgoes.sound hready.sound).asked
      exact {
        count := (Nat.zero_add _).trans hgoes.pending
        output := hgoes.grows.asked
        flushed := fun hzero => absurd hzero Nat.one_ne_zero
        sent := hgoes.grows.committed
        bounded := ⟨_, hasked.symm⟩
        settles := fun hne => absurd rfl hne }
    | flush =>
      cases h
      have hcommitted := hready.sound.commit.2
      have hasked := Mysql.Session.asked_commit s.mysql
      exact {
        count := by
          show s.ack_events + s.pending_events + 0 = s.pending_events + 0
          rw [hready.ack, Nat.zero_add]
        output := ⟨[], (List.append_nil _).trans hasked.symm⟩
        flushed := fun _ => hasked
        sent := (Mysql.Session.grows_commit s.mysql).committed
        bounded := ⟨[], (List.append_nil _).trans hcommitted⟩
        settles := fun _ => hcommitted }
  kept := by
    intro c s n s' hready _ h
    cases c with
    | write data =>
      have hgoes := (goes_write h hready.ack hready.sound.served).2
      exact ⟨hgoes.ack hready.ack, hgoes.sound hready.sound⟩
    | flush =>
      cases h
      exact ⟨rfl, hready.sound.commit.1⟩

end CentreonBroker.Bam.ReportingStream
