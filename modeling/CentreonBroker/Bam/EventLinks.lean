import CentreonBroker.Bam.EventLinksInv

/-!
# The links between KPI events and BA events

A KPI event is linked when it is inserted, to the event of its BA that contains its start. The
link goes to an event that is inserted later if it waits for it, and only the first KPI event of
a BA and a time has its link waiting. So a KPI event must not come before the BA event that
contains its start, but for one that starts with it.
-/

namespace CentreonBroker.Bam

variable {baOf : ℕ → ℕ} {es pre post : List Event}

/-- A KPI event has exactly one link, to the event of its BA that contains its start. -/
def Linked (baOf : ℕ → ℕ) (t : Tables) (k : ℕ × KpiEventRow) : Prop :=
  ∃ be ∈ t.ba_events,
    (t.relations_ba_kpi_events.filter fun rel => rel.2.2 = k.1).map (·.2) = [(be.1, k.1)] ∧
      be.2.ba_id = baOf k.2.kpi_id ∧ be.2.Contains k.2.start_time

instance (baOf : ℕ → ℕ) (t : Tables) (k : ℕ × KpiEventRow) : Decidable (Linked baOf t k) :=
  inferInstanceAs (Decidable (∃ be ∈ t.ba_events, _))

/-- The events are written one after the other. -/
def ReportingStream.writes (offset : ℤ) (duration_intersect : Time.Timeperiod → ℤ → ℤ → ℕ) :
    List Event → ReportingStream → Option ReportingStream
  | [], s => some s
  | e :: es, s => (write offset duration_intersect (some e) s).bind fun r =>
      writes offset duration_intersect es r.2

section

variable {offset : ℤ} {duration_intersect : Time.Timeperiod → ℤ → ℤ → ℕ} {s s' : ReportingStream}

theorem inv_writes (htl : Timelines baOf (pre ++ post)) (h : s.links.Inv baOf (pre ++ post) pre)
    (hserved : s.mysql.Served)
    (hrun : ReportingStream.writes offset duration_intersect post s = some s') :
    s'.links.Inv baOf (pre ++ post) (pre ++ post) := by
  induction post generalizing pre s with
  | nil =>
    cases hrun
    rw [List.append_nil] at h ⊢
    exact h
  | cons e post ih =>
    obtain ⟨⟨n, s₁⟩, hwrite, hrun⟩ := Option.bind_eq_some_iff.mp hrun
    have hstore := h.store htl
    obtain ⟨hserved₁, hlinks⟩ := ReportingStream.links_write
      (htl.event e (List.mem_append_right _ List.mem_cons_self)) hserved hwrite
    rw [← hlinks] at hstore
    have happend : pre ++ e :: post = pre ++ [e] ++ post := by
      rw [List.append_assoc, List.singleton_append]
    rw [happend] at htl hstore ⊢
    exact ih htl hstore hserved₁ hrun

theorem exists_first {ke : KpiEvent} (hmem : .kpi_event ke ∈ es) :
    ∃ pre ke' post, es = pre ++ .kpi_event ke' :: post ∧ ke'.kpi_id = ke.kpi_id ∧
      ke'.start_time = ke.start_time ∧ NotYet pre ke.kpi_id ke.start_time := by
  induction es using List.reverseRecOn generalizing ke with
  | nil => cases hmem
  | append_singleton es e ih =>
    by_cases hseen : NotYet es ke.kpi_id ke.start_time
    · rcases List.mem_append.mp hmem with hold | hnew
      · exact absurd ⟨rfl, rfl⟩ (hseen ke hold)
      · exact ⟨es, ke, [], by rw [List.mem_singleton.mp hnew], rfl, rfl, hseen⟩
    · unfold NotYet at hseen
      push Not at hseen
      obtain ⟨ke₀, hke₀, hkpi, hst⟩ := hseen
      obtain ⟨pre, ke', post, hes, hkey⟩ := ih hke₀
      rw [hkpi, hst] at hkey
      exact ⟨pre, ke', post ++ [e], by rw [hes, List.append_assoc, List.cons_append], hkey⟩

/-- Each KPI event is linked to the event that contains its start if and only if each is on time
when it is announced first. -/
theorem linked_iff (htl : Timelines baOf es) (timeperiods : TimeperiodMap)
    (hrun : ReportingStream.writes offset duration_intersect es (.new Tables.new timeperiods) =
      some s) :
    (∀ k ∈ s.mysql.tables.kpi_events, Linked baOf s.mysql.tables k) ↔
      ∀ pre ke post, es = pre ++ .kpi_event ke :: post →
        NotYet pre ke.kpi_id ke.start_time → OnTime es pre ke := by
  have hstart : (ReportingStream.new Tables.new timeperiods).links.Inv baOf ([] ++ es) [] :=
    LinkTables.inv_new baOf es
  have hinv : s.links.Inv baOf es es :=
    inv_writes htl hstart (Mysql.Session.served_new Tables.new) hrun
  constructor
  · intro hlinked pre ke post hes hnot
    by_contra htime
    have hmem : Event.kpi_event ke ∈ es := by
      rw [hes]
      exact List.mem_append_right _ List.mem_cons_self
    obtain ⟨k, hk, hkpi, hst⟩ := hinv.kpi.all ke hmem
    have hwrong := hinv.wrong k hk fun htimed => by
      rw [hkpi, hst, timed_iff hes hnot] at htimed
      exact htime htimed
    obtain ⟨be, hbe, hlinks, hb, hcontains⟩ := hlinked k hk
    obtain ⟨rel, hrel, hrel'⟩ := List.map_eq_singleton_iff.mp hlinks
    have hmem : rel ∈ s.links.linksOf k.1 := by
      show rel ∈ s.mysql.tables.relations_ba_kpi_events.filter _
      rw [hrel]
      exact List.mem_singleton_self _
    refine (hwrong rel hmem).1 be hbe (by rw [hrel']) ?_
    rw [← hb]
    exact (hinv.ba.final_of_contains hbe).mp hcontains
  · intro htimes k hk
    obtain ⟨ke, hke, hkpi, hst⟩ := hinv.kpi.row k hk
    obtain ⟨pre, ke', post, hes, hkpi', hst', hnot⟩ := exists_first hke
    have htimed : Timed es k.2.kpi_id k.2.start_time := by
      rw [← hkpi, ← hst]
      refine ⟨pre, ke', post, hes, hkpi', hst', hnot, htimes pre ke' post hes ?_⟩
      rw [hkpi', hst']
      exact hnot
    obtain ⟨r, e, he, hlinks, hb, hfinal⟩ := hinv.right k hk htimed
    refine ⟨e, he, ?_, hb, ?_⟩
    · show (s.links.linksOf k.1).map (·.2) = _
      rw [hlinks]
      rfl
    · rcases hfinal with hfinal | hwaits
      · rw [← hb] at hfinal
        exact (hinv.ba.final_of_contains he).mpr hfinal
      · obtain ⟨m, hm, -⟩ := hwaits.final
        rw [hwaits.new] at hm
        cases hm

end

/-! ### Events of the same second -/

/-- An event of the BA 1, open where its end is -1. -/
def baOne (start_time end_time : ℤ) : BaEvent := ⟨1, 0, end_time, false, start_time, 0⟩

/-- An event of a KPI of the BA 1. -/
def kpiOfOne (kpi_id : ℕ) (start_time : ℤ) : KpiEvent := ⟨-1, kpi_id, 0, false, start_time, 0, 1⟩

/-- The BA changes with KPIs, whose events come before its own. -/
def sameSecond (kpis : List ℕ) : List Event :=
  .ba_event (baOne 100 (-1)) :: kpis.map (fun kpi_id => .kpi_event (kpiOfOne kpi_id 200)) ++
    [.ba_event (baOne 100 200), .ba_event (baOne 200 (-1))]

theorem timelines_sameSecond (kpis : List ℕ) : Timelines (fun _ => 1) (sameSecond kpis) := by
  have hkpis : ∀ kpis : List ℕ, Timelines (fun _ => 1) (.ba_event (baOne 100 (-1)) ::
      kpis.map fun kpi_id => .kpi_event (kpiOfOne kpi_id 200)) ∧
      latest 1 (.ba_event (baOne 100 (-1)) ::
        kpis.map fun kpi_id => .kpi_event (kpiOfOne kpi_id 200)) = some (baOne 100 (-1)) := by
    intro kpis
    induction kpis using List.reverseRecOn with
    | nil => exact ⟨(timelines_nil _).concat_ba (fun last hlast => by cases hlast), rfl⟩
    | append_singleton kpis kpi_id ih =>
      rw [List.map_append, ← List.cons_append]
      exact ⟨ih.1.concat_kpi rfl, (latest_append_kpi _).trans ih.2⟩
  obtain ⟨hopen, hlatest⟩ := hkpis kpis
  have hclosed : Timelines (fun _ => 1) (.ba_event (baOne 100 (-1)) ::
      kpis.map (fun kpi_id => .kpi_event (kpiOfOne kpi_id 200)) ++ [.ba_event (baOne 100 200)]) := by
    refine hopen.concat_ba fun last hlast => ?_
    cases hlatest.symm.trans hlast
    exact .inl ⟨rfl, .inl rfl⟩
  have hnext : Timelines (fun _ => 1) (.ba_event (baOne 100 (-1)) ::
      kpis.map (fun kpi_id => .kpi_event (kpiOfOne kpi_id 200)) ++ [.ba_event (baOne 100 200)] ++
      [.ba_event (baOne 200 (-1))]) := by
    refine hclosed.concat_ba fun last hlast => ?_
    rw [latest_append_ba, if_pos (by rfl)] at hlast
    cases hlast
    exact .inr ⟨by decide, rfl⟩
  rw [List.append_assoc] at hnext
  exact hnext

/-- The event of a single KPI is linked. -/
theorem linked_iff_sameSecond :
    ∃ s, ReportingStream.writes 0 (fun _ _ _ => 0) (sameSecond [1]) (.new Tables.new .new) =
        some s ∧
      ((∀ k ∈ s.mysql.tables.kpi_events, Linked (fun _ => 1) s.mysql.tables k) ↔
        ∀ pre ke post, sameSecond [1] = pre ++ .kpi_event ke :: post →
          NotYet pre ke.kpi_id ke.start_time → OnTime (sameSecond [1]) pre ke) := by
  have hwritten : ∃ s, ReportingStream.writes 0 (fun _ _ _ => 0) (sameSecond [1])
      (.new Tables.new .new) = some s := ⟨_, rfl⟩
  obtain ⟨s, hrun⟩ := hwritten
  exact ⟨s, hrun, linked_iff (timelines_sameSecond [1]) .new hrun⟩

/-- Where two KPIs change with their BA, the event of the second stays linked to the BA event that
they end. -/
theorem not_linked : ¬ ∀ (offset : ℤ) (duration_intersect : Time.Timeperiod → ℤ → ℤ → ℕ)
    (baOf : ℕ → ℕ) (es : List Event) (timeperiods : TimeperiodMap) (s : ReportingStream),
    Timelines baOf es →
    (∀ ke, .kpi_event ke ∈ es →
      ∃ be, .ba_event be ∈ es ∧ be.ba_id = ke.ba_id ∧ be.start_time ≤ ke.start_time) →
    ((es.filterMap Event.kpiEvent?).Pairwise fun ke ke' =>
      ke.kpi_id = ke'.kpi_id → ke.start_time ≤ ke'.start_time) →
    ReportingStream.writes offset duration_intersect es (.new Tables.new timeperiods) = some s →
    ∀ k ∈ s.mysql.tables.kpi_events, Linked baOf s.mysql.tables k := by
  intro hall
  have hstarts : ∀ ke, .kpi_event ke ∈ sameSecond [1, 2] → ∃ be, .ba_event be ∈ sameSecond [1, 2] ∧
      be.ba_id = ke.ba_id ∧ be.start_time ≤ ke.start_time := by
    intro ke hke
    refine ⟨baOne 100 (-1), List.mem_cons_self, ?_⟩
    simp [sameSecond] at hke
    rcases hke with rfl | rfl <;> decide
  have hlinked := hall 0 (fun _ _ _ => 0) (fun _ => 1) (sameSecond [1, 2]) .new _
    (timelines_sameSecond [1, 2]) hstarts (by decide) rfl
  exact absurd hlinked (by decide)

end CentreonBroker.Bam
