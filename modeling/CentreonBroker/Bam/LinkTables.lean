import CentreonBroker.Bam.ReportingCount

/-!
# The tables of the links

The events of the BAs and of the KPIs, the links between them, and the links that wait for their
BA event: what the stream does to them when an event is written, without the connection.
-/

namespace CentreonBroker.Bam

open Time (Timeperiod)

structure LinkTables where
  ba_events : List (ℕ × BaEventRow)
  last_ba_event_id : ℕ
  kpi_events : List (ℕ × KpiEventRow)
  last_kpi_event_id : ℕ
  relations : List (ℕ × ℕ × ℕ)
  last_relation_id : ℕ
  last_inserted_kpi : ℕ → ℤ → Option ℕ

namespace LinkTables

/-- The events of a BA that contain a time. -/
def containing (l : LinkTables) (ba_id : ℕ) (t : ℤ) : List (ℕ × BaEventRow) :=
  l.ba_events.filter fun be => be.2.ba_id = ba_id ∧ be.2.Contains t

/-- The links of a new KPI event. -/
def newLinks (l : LinkTables) (ke : KpiEvent) : List (ℕ × ℕ × ℕ) :=
  ((l.containing ke.ba_id ke.start_time).map fun be => (be.1, l.last_kpi_event_id + 1)).zipIdx.map
    fun link => (l.last_relation_id + 1 + link.2, link.1)

/-- The link that is kept for a new KPI event. -/
def newEntry (l : LinkTables) (ke : KpiEvent) : ℕ :=
  (l.last_inserted_kpi ke.ba_id ke.start_time).getD
    (if (l.containing ke.ba_id ke.start_time).isEmpty then 0 else l.last_relation_id + 1)

def hasKpi (l : LinkTables) (ke : KpiEvent) : Prop :=
  ∃ e ∈ l.kpi_events, e.2.Matches ke.kpi_id ke.start_time

def hasBa (l : LinkTables) (be : BaEvent) : Prop :=
  ∃ e ∈ l.ba_events, e.2.Matches be.ba_id be.start_time

instance (l : LinkTables) (ke : KpiEvent) : Decidable (l.hasKpi ke) :=
  inferInstanceAs (Decidable (∃ e ∈ l.kpi_events, _))

instance (l : LinkTables) (be : BaEvent) : Decidable (l.hasBa be) :=
  inferInstanceAs (Decidable (∃ e ∈ l.ba_events, _))

def updateKpi (ke : KpiEvent) (l : LinkTables) : LinkTables :=
  { l with kpi_events := l.kpi_events.map fun e =>
      if e.2.Matches ke.kpi_id ke.start_time then (e.1, ke.row) else e }

def insertKpi (ke : KpiEvent) (l : LinkTables) : LinkTables :=
  { l with
    kpi_events := l.kpi_events ++ [(l.last_kpi_event_id + 1, ke.row)]
    last_kpi_event_id := l.last_kpi_event_id + 1
    relations := l.relations ++ l.newLinks ke
    last_relation_id := l.last_relation_id + (l.containing ke.ba_id ke.start_time).length
    last_inserted_kpi := Function.update l.last_inserted_kpi ke.ba_id
      (Function.update (l.last_inserted_kpi ke.ba_id) ke.start_time (some (l.newEntry ke))) }

def storeKpi (ke : KpiEvent) (l : LinkTables) : LinkTables :=
  if l.hasKpi ke then l.updateKpi ke else l.insertKpi ke

def updateBa (be : BaEvent) (l : LinkTables) : LinkTables :=
  { l with ba_events := l.ba_events.map fun e =>
      if e.2.Matches be.ba_id be.start_time then (e.1, be.row) else e }

/-- The link that was kept for the start of the event goes to it. -/
def relinked (l : LinkTables) (be : BaEvent) (rel : ℕ × ℕ × ℕ) : ℕ × ℕ × ℕ :=
  if l.last_inserted_kpi be.ba_id be.start_time = some rel.1 then
    (rel.1, l.last_ba_event_id + 1, rel.2.2)
  else rel

def insertBa (be : BaEvent) (l : LinkTables) : LinkTables :=
  { l with
    ba_events := l.ba_events ++ [(l.last_ba_event_id + 1, be.row)]
    last_ba_event_id := l.last_ba_event_id + 1
    relations := l.relations.map (l.relinked be)
    last_inserted_kpi := Function.update l.last_inserted_kpi be.ba_id
      (ReportingStream.removeOlder be.start_time (l.last_inserted_kpi be.ba_id)) }

def storeBa (be : BaEvent) (l : LinkTables) : LinkTables :=
  if l.hasBa be then l.updateBa be else l.insertBa be

def store : Event → LinkTables → LinkTables
  | .kpi_event ke, l => l.storeKpi ke
  | .ba_event be, l => l.storeBa be
  | _, l => l

end LinkTables

/-- The tables of the links, with what waits for its BA event. -/
def Tables.links (t : Tables) (last_inserted_kpi : ℕ → ℤ → Option ℕ) : LinkTables where
  ba_events := t.ba_events
  last_ba_event_id := t.last_ba_event_id
  kpi_events := t.kpi_events
  last_kpi_event_id := t.last_kpi_event_id
  relations := t.relations_ba_kpi_events
  last_relation_id := t.last_relation_id
  last_inserted_kpi := last_inserted_kpi

namespace ReportingStream

variable {s s' : ReportingStream} {st : Statement}

def links (s : ReportingStream) : LinkTables := s.mysql.tables.links s.last_inserted_kpi

theorem countP_eq_zero_iff {α : Type} {p : α → Prop} [DecidablePred p] (l : List α) :
    l.countP (fun a => p a) = 0 ↔ ¬ ∃ a ∈ l, p a := by
  simp [List.countP_eq_zero]

theorem map_update_eq_self {α : Type} {p : α → Prop} [DecidablePred p] {f : α → α} {l : List α}
    (h : ¬ ∃ a ∈ l, p a) : (l.map fun a => if p a then f a else a) = l := by
  refine (List.map_congr_left fun a ha => ?_).trans l.map_id
  exact if_neg fun hp => h ⟨a, ha, hp⟩

/-- A statement only changes the tables. -/
theorem tables_run {r : Answer × ReportingStream} (hserved : s.mysql.Served)
    (h : s.run st = some r) : r.2.mysql.Served ∧
      s.mysql.tables.exec st = some (r.1, r.2.mysql.tables) ∧
        r.2.last_inserted_kpi = s.last_inserted_kpi := by
  obtain ⟨tables, hattempt, hr⟩ := run_eq h
  rw [Mysql.Session.attempt_eq _ hserved] at hattempt
  rw [hr]
  exact ⟨(Mysql.Session.served_answered hserved).1, hattempt, rfl⟩

/-- So does one that no key refuses. -/
theorem tables_run_statement {r : Answer × Tables} (hserved : s.mysql.Served)
    (h : s.run_statement true st = some s') (hexec : s.mysql.tables.exec st = some r) :
    s'.mysql.Served ∧ s'.mysql.tables = r.2 ∧ s'.last_inserted_kpi = s.last_inserted_kpi := by
  obtain ⟨mysql, hrun, rfl⟩ := Option.map_eq_some_iff.mp h
  rw [← Mysql.Session.attempt_eq Tables.exec hserved] at hexec
  rcases Mysql.Session.run_statement_eq hrun with ⟨r', hr', rfl⟩ | ⟨hnone, -⟩
  · cases hexec.symm.trans hr'
    exact ⟨(Mysql.Session.served_answered hserved).1, rfl, rfl⟩
  · rw [hnone] at hexec
    cases hexec

/-- A new KPI event is joined to the events of its BA that contain its start. -/
theorem linked_insert (t : Tables) (row : KpiEventRow) {id : ℕ} (ba_id : ℕ)
    (hnone : ¬ ∃ e ∈ t.kpi_events, e.2.Matches row.kpi_id row.start_time) :
    Tables.linked { t with kpi_events := t.kpi_events ++ [(id, row)], last_kpi_event_id := id }
        row.kpi_id row.start_time ba_id =
      (t.ba_events.filter fun be => be.2.ba_id = ba_id ∧ be.2.Contains row.start_time).map
        fun be => (be.1, id) := by
  unfold Tables.linked
  have hold : (t.kpi_events.filter fun ke => ke.2.Matches row.kpi_id row.start_time) = [] := by
    rw [List.filter_eq_nil_iff]
    intro e he hmatches
    exact hnone ⟨e, he, of_decide_eq_true hmatches⟩
  have hnew : row.Matches row.kpi_id row.start_time := ⟨rfl, rfl⟩
  rw [List.filter_append, hold, List.nil_append, List.filter_cons, if_pos (decide_eq_true hnew),
    List.filter_nil, List.flatMap_singleton]

/-- `_process_kpi_event`, on the tables of the links. -/
theorem links_kpi_event {ke : KpiEvent} (hserved : s.mysql.Served)
    (h : process_kpi_event ke s = some s') : s'.links = s.links.storeKpi ke := by
  unfold process_kpi_event at h
  obtain ⟨⟨answer, s₁⟩, hupdate, h⟩ := Option.bind_eq_some_iff.mp h
  obtain ⟨hserved₁, hexec, hlast⟩ := tables_run hserved hupdate
  obtain ⟨hanswer, htables⟩ := Prod.mk.inj (Option.some.inj hexec)
  have hhas : answer.affected_rows = 0 ↔ ¬ s.links.hasKpi ke := by
    rw [← show _ = answer from hanswer]
    exact countP_eq_zero_iff _
  dsimp only at h htables hlast
  by_cases hkpi : s.links.hasKpi ke
  · rw [if_neg (mt hhas.mp (not_not.mpr hkpi))] at h
    cases h
    rw [LinkTables.storeKpi, if_pos hkpi, links, ← htables, hlast]
    rfl
  · rw [if_pos (hhas.mpr hkpi)] at h
    have hsame : s₁.mysql.tables = s.mysql.tables := by
      rw [← htables]
      congr 1
      exact map_update_eq_self hkpi
    obtain ⟨s₂, hinsert, h⟩ := Option.bind_eq_some_iff.mp h
    obtain ⟨hserved₂, htables₂, hlast₂⟩ := tables_run_statement hserved₁ hinsert rfl
    replace htables₂ := htables₂.symm
    obtain ⟨⟨answer₃, s₃⟩, hlink, h⟩ := Option.bind_eq_some_iff.mp h
    obtain ⟨-, hexec₃, hlast₃⟩ := tables_run hserved₂ hlink
    obtain ⟨hanswer₃, htables₃⟩ := Prod.mk.inj (Option.some.inj hexec₃)
    rw [hsame] at htables₂
    dsimp only at h htables₂ hanswer₃ htables₃ hlast₃
    have hlinked : s₂.mysql.tables.linked ke.kpi_id ke.start_time ke.ba_id =
        (s.links.containing ke.ba_id ke.start_time).map fun be =>
          (be.1, s.links.last_kpi_event_id + 1) := by
      rw [← htables₂]
      exact linked_insert s.mysql.tables ke.row ke.ba_id hkpi
    have hentry : s₃.last_inserted_kpi = s.last_inserted_kpi := by rw [hlast₃, hlast₂, hlast]
    rw [hlinked, ← htables₂] at htables₃
    rw [hlinked] at hanswer₃
    have hanswer : answer₃.last_insert_id =
        if (s.links.containing ke.ba_id ke.start_time).isEmpty then 0
        else s.links.last_relation_id + 1 := by
      rw [← hanswer₃, ← htables₂]
      cases s.links.containing ke.ba_id ke.start_time <;> rfl
    cases h
    rw [LinkTables.storeKpi, if_neg hkpi, links, ← htables₃]
    unfold LinkTables.insertKpi LinkTables.newLinks LinkTables.newEntry
    rw [hentry, hanswer, List.length_map]
    rfl

variable {be : BaEvent}

/-- What `_process_ba_event` does to the link that waits for the event. -/
theorem links_relink {newba : ℕ} (hserved : s.mysql.Served)
    (h : relink be newba s = some s') : s'.links = { s.links with
      relations := s.links.relations.map fun rel =>
        if s.links.last_inserted_kpi be.ba_id be.start_time = some rel.1 then
          (rel.1, newba, rel.2.2)
        else rel
      last_inserted_kpi := Function.update s.links.last_inserted_kpi be.ba_id
        (removeOlder be.start_time (s.links.last_inserted_kpi be.ba_id)) } := by
  unfold relink at h
  split at h
  · rename_i relation_id hentry
    obtain ⟨s₁, hupdate, h⟩ := Option.bind_eq_some_iff.mp h
    obtain ⟨-, htables, hlast⟩ := tables_run_statement hserved hupdate rfl
    cases h
    have hwaits : s.links.last_inserted_kpi be.ba_id be.start_time = some relation_id := hentry
    rw [links, htables, hlast, hwaits]
    simp only [Option.some.injEq, eq_comm (a := relation_id)]
    rfl
  · rename_i hentry
    have hwaits : s.links.last_inserted_kpi be.ba_id be.start_time = none := hentry
    cases h
    rw [hwaits]
    simp only [reduceCtorEq, if_false, List.map_id']
    rfl

theorem links_store_ba_event (hserved : s.mysql.Served)
    (h : store_ba_event be s = some s') : s'.links = s.links.storeBa be := by
  unfold store_ba_event at h
  obtain ⟨⟨answer, s₁⟩, hupdate, h⟩ := Option.bind_eq_some_iff.mp h
  obtain ⟨hserved₁, hexec, hlast⟩ := tables_run hserved hupdate
  obtain ⟨hanswer, htables⟩ := Prod.mk.inj (Option.some.inj hexec)
  have hhas : answer.affected_rows = 0 ↔ ¬ s.links.hasBa be := by
    rw [← show _ = answer from hanswer]
    exact countP_eq_zero_iff _
  dsimp only at h htables hlast
  by_cases hba : s.links.hasBa be
  · rw [if_neg (mt hhas.mp (not_not.mpr hba))] at h
    cases h
    rw [LinkTables.storeBa, if_pos hba, links, ← htables, hlast]
    rfl
  · rw [if_pos (hhas.mpr hba)] at h
    have hsame : s₁.mysql.tables = s.mysql.tables := by
      rw [← htables]
      congr 1
      exact map_update_eq_self hba
    obtain ⟨⟨answer₂, s₂⟩, hinsert, h⟩ := Option.bind_eq_some_iff.mp h
    obtain ⟨hserved₂, hexec₂, hlast₂⟩ := tables_run hserved₁ hinsert
    obtain ⟨hanswer₂, htables₂⟩ := Prod.mk.inj (Option.some.inj hexec₂)
    dsimp only at h hanswer₂ htables₂ hlast₂
    rw [hsame] at htables₂ hanswer₂
    rw [← hanswer₂] at h
    rw [LinkTables.storeBa, if_neg hba, links_relink hserved₂ h, links, ← htables₂, hlast₂, hlast]
    rfl

/-- The durations are not linked. -/
theorem links_ba_duration_event {bde : BaDurationEvent} (hserved : s.mysql.Served)
    (h : process_ba_duration_event bde s = some s') : s'.links = s.links := by
  unfold process_ba_duration_event at h
  obtain ⟨⟨answer, s₁⟩, hupdate, h⟩ := Option.bind_eq_some_iff.mp h
  obtain ⟨hserved₁, hexec, hlast⟩ := tables_run hserved hupdate
  obtain ⟨-, htables⟩ := Prod.mk.inj (Option.some.inj hexec)
  have hlinks : s₁.links = s.links := by
    rw [links, hlast, ← show _ = s₁.mysql.tables from htables]
    rfl
  dsimp only at h
  split at h
  · rename_i hnone
    obtain ⟨⟨answer₂, tables⟩, hexec₂⟩ :=
      Option.isSome_iff_exists.mp (isSome_duration_insert hexec hnone)
    obtain ⟨-, htables₂, hlast₂⟩ := tables_run_statement hserved₁ h hexec₂
    unfold Tables.exec at hexec₂
    dsimp only at hexec₂ htables₂
    split at hexec₂
    · cases hexec₂
    · cases hexec₂
      rw [links, hlast₂, htables₂, ← hlinks]
      rfl
  · cases h
    exact hlinks

variable {duration_intersect : Timeperiod → ℤ → ℤ → ℕ} {offset : ℤ}

theorem links_compute {ev : BaEvent}
    (hserved : s.mysql.Served)
    (h : compute_event_durations offset duration_intersect ev s = some s') :
    s'.links = s.links := by
  obtain ⟨timeperiods, -, hfold⟩ := Option.bind_eq_some_iff.mp h
  clear h
  induction timeperiods generalizing s with
  | nil =>
    cases hfold
    rfl
  | cons tp timeperiods ih =>
    rw [List.foldlM_cons] at hfold
    obtain ⟨s₁, hwrite, hfold⟩ := Option.bind_eq_some_iff.mp hfold
    split at hwrite
    · obtain ⟨r, hself, rfl⟩ := Option.map_eq_some_iff.mp hwrite
      rw [ih ((keeps_write_ba_duration_event hself).served hserved) hfold]
      obtain ⟨s₂, hprocess, rfl⟩ := Option.map_eq_some_iff.mp hself
      show s₂.links = s.account.links
      exact links_ba_duration_event hserved hprocess
    · cases hwrite
      exact ih hserved hfold

theorem links_ba_event
    (hserved : s.mysql.Served) (h : process_ba_event offset duration_intersect be s = some s') :
    s'.links = s.links.storeBa be := by
  obtain ⟨s₁, hstore, h⟩ := Option.bind_eq_some_iff.mp h
  rw [← links_store_ba_event hserved hstore]
  split at h
  · exact links_compute ((keeps_store_ba_event hstore).served hserved) h
  · cases h
    rfl

/-- A write of an event of a KPI or of a BA, on the tables of the links. -/
theorem links_write {e : Event} {n : ℕ}
    (he : (∃ ke, e = .kpi_event ke) ∨ ∃ be, e = .ba_event be) (hserved : s.mysql.Served)
    (h : write offset duration_intersect (some e) s = some (n, s')) :
    s'.mysql.Served ∧ s'.links = s.links.store e := by
  obtain ⟨s₁, hprocess, h⟩ := Option.map_eq_some_iff.mp h
  cases h
  refine ⟨(goes_process (s := s.account) hserved hprocess).served hserved, ?_⟩
  show s₁.links = s.account.links.store e
  rcases he with ⟨ke, rfl⟩ | ⟨be, rfl⟩
  · exact links_kpi_event hserved hprocess
  · exact links_ba_event hserved hprocess

end ReportingStream

end CentreonBroker.Bam
