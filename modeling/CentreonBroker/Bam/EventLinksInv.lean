import CentreonBroker.Bam.Announcements
import CentreonBroker.Bam.LinkTables

/-!
# What the links are while events come

The link of a KPI event is right if it goes to the BA event that contains its start, or waits for
it. A link that is right stays right, and one that is not never becomes right.
-/

namespace CentreonBroker.Bam

/-- In the end, the event of a BA that starts at a time contains another. -/
def Final (es : List Event) (ba_id : ℕ) (t start_time : ℤ) : Prop :=
  ∃ be, announced ba_id start_time es = some be ∧ be.row.Contains t

/-- No event of the KPI that starts at the time was announced. -/
def NotYet (pre : List Event) (kpi_id : ℕ) (t : ℤ) : Prop :=
  ∀ ke, .kpi_event ke ∈ pre → ¬ (ke.kpi_id = kpi_id ∧ ke.start_time = t)

/-- A KPI event comes when the BA event that contains its start was announced, or just before it:
it starts with it, the BA event before is not ended yet, and it is the first KPI event of its BA
to start then. -/
def OnTime (es pre : List Event) (ke : KpiEvent) : Prop :=
  ∃ st, Final es ke.ba_id ke.start_time st ∧ ((announced ke.ba_id st pre).isSome ∨
    st = ke.start_time ∧
      (∃ last, latest ke.ba_id pre = some last ∧ nullable last.end_time = none) ∧
      ∀ ke', .kpi_event ke' ∈ pre → ¬ (ke'.ba_id = ke.ba_id ∧ ke'.start_time = ke.start_time))

/-- The first time that the event is announced, it is on time. -/
def Timed (es : List Event) (kpi_id : ℕ) (t : ℤ) : Prop :=
  ∃ pre ke post, es = pre ++ .kpi_event ke :: post ∧ ke.kpi_id = kpi_id ∧ ke.start_time = t ∧
    NotYet pre kpi_id t ∧ OnTime es pre ke

variable {baOf : ℕ → ℕ} {es pre post : List Event} {b : ℕ} {t st st' : ℤ}

/-- Only one event contains a time. -/
theorem Final.unique (htl : Timelines baOf es) (h : Final es b t st) (h' : Final es b t st') :
    st = st' := by
  obtain ⟨be, hbe, hle, hend⟩ := h
  obtain ⟨be', hbe', hle', hend'⟩ := h'
  have hst : be.row.start_time = st := (announced_key hbe).2
  have hst' : be'.row.start_time = st' := (announced_key hbe').2
  rcases lt_trichotomy st st' with hlt | heq | hlt
  · obtain ⟨end_time, hclosed, hbefore⟩ := htl.ended hbe hbe' hlt
    have := hend end_time hclosed
    omega
  · exact heq
  · obtain ⟨end_time, hclosed, hbefore⟩ := htl.ended hbe' hbe hlt
    have := hend' end_time hclosed
    omega

/-- What contains a time in the end contains it since it was announced. -/
theorem Final.contains (htl : Timelines baOf (pre ++ post)) (h : Final (pre ++ post) b t st)
    {m : BaEvent} (hm : announced b st pre = some m) : m.row.Contains t := by
  obtain ⟨be, hbe, hle, hend⟩ := h
  have hst : be.start_time = m.start_time := (announced_key hbe).2.trans (announced_key hm).2.symm
  refine ⟨hst.ge.trans hle, fun end_time hclosed => ?_⟩
  rcases htl.same_end hm hbe with hopen | hsame
  · rw [show m.row.end_time = none from hopen] at hclosed
    cases hclosed
  · exact hend end_time (hsame.trans hclosed)

/-- The first announcement of a KPI event is the one that counts. -/
theorem timed_iff {ke : KpiEvent} (hes : es = pre ++ .kpi_event ke :: post)
    (hnot : NotYet pre ke.kpi_id ke.start_time) :
    Timed es ke.kpi_id ke.start_time ↔ OnTime es pre ke := by
  constructor
  · rintro ⟨pre', ke', post', hes', hkpi, hst, hnot', htime⟩
    rw [hes'] at hes
    rcases List.append_eq_append_iff.mp hes with ⟨mid, hpre, hrest⟩ | ⟨mid, hpre, hrest⟩
    · cases mid with
      | nil =>
        rw [List.append_nil] at hpre
        cases hrest
        rw [hpre]
        exact htime
      | cons e mid =>
        cases hrest
        refine absurd ⟨hkpi, hst⟩ (hnot ke' ?_)
        rw [hpre]
        exact List.mem_append_right _ List.mem_cons_self
    · cases mid with
      | nil =>
        rw [List.append_nil] at hpre
        cases hrest
        rw [← hpre]
        exact htime
      | cons e mid =>
        cases hrest
        refine absurd ⟨rfl, rfl⟩ (hnot' ke ?_)
        rw [hpre]
        exact List.mem_append_right _ List.mem_cons_self
  · intro htime
    exact ⟨pre, ke, post, hes, rfl, rfl, hnot, htime⟩

namespace LinkTables

variable {l : LinkTables} {be : BaEvent} {ke : KpiEvent}

/-! ## The events of the BAs -/

/-- The rows are what was announced last of each event. -/
structure BaWf (pre : List Event) (l : LinkTables) : Prop where
  ids : (l.ba_events.map (·.1)).Nodup
  le : ∀ e ∈ l.ba_events, e.1 ≤ l.last_ba_event_id
  row : ∀ e ∈ l.ba_events, ∃ be, announced e.2.ba_id e.2.start_time pre = some be ∧ e.2 = be.row
  all : ∀ b st be, announced b st pre = some be → ∃ e ∈ l.ba_events, e.2 = be.row
  key : ∀ e ∈ l.ba_events, ∀ e' ∈ l.ba_events, e.2.ba_id = e'.2.ba_id →
    e.2.start_time = e'.2.start_time → e = e'

variable {e : ℕ × BaEventRow}

theorem BaWf.id_inj (h : l.BaWf pre) {e' : ℕ × BaEventRow} (he : e ∈ l.ba_events)
    (he' : e' ∈ l.ba_events) (hid : e.1 = e'.1) : e = e' :=
  List.inj_on_of_nodup_map h.ids he he' hid

theorem BaWf.isSome (h : l.BaWf pre) (he : e ∈ l.ba_events) :
    (announced e.2.ba_id e.2.start_time pre).isSome := by
  obtain ⟨be, hbe, -⟩ := h.row e he
  rw [hbe]
  rfl

theorem BaWf.hasBa_iff (h : l.BaWf pre) :
    l.hasBa be ↔ (announced be.ba_id be.start_time pre).isSome := by
  constructor
  · rintro ⟨e, he, hb, hst⟩
    rw [← hb, ← hst]
    exact h.isSome he
  · intro hsome
    obtain ⟨m, hm⟩ := Option.isSome_iff_exists.mp hsome
    obtain ⟨e, he, hrow⟩ := h.all _ _ _ hm
    obtain ⟨hb, hst⟩ := announced_key hm
    exact ⟨e, he, by rw [hrow]; exact hb, by rw [hrow]; exact hst⟩

/-- What contains a time now contains it in the end, unless it is ended since. -/
theorem BaWf.final_of_contains (h : l.BaWf pre) (he : e ∈ l.ba_events) :
    e.2.Contains t ↔ Final pre e.2.ba_id t e.2.start_time := by
  obtain ⟨be, hbe, hrow⟩ := h.row e he
  constructor
  · intro hcontains
    exact ⟨be, hbe, hrow ▸ hcontains⟩
  · rintro ⟨be', hbe', hcontains⟩
    rw [hbe] at hbe'
    cases hbe'
    exact hrow ▸ hcontains

theorem mem_containing :
    e ∈ l.containing b t ↔ e ∈ l.ba_events ∧ e.2.ba_id = b ∧ e.2.Contains t := by
  unfold containing
  rw [List.mem_filter, decide_eq_true_iff]

/-- At most one event of a BA contains a time. -/
theorem BaWf.containing_eq (h : l.BaWf pre) (htl : Timelines baOf pre)
    (he : e ∈ l.containing b t) : l.containing b t = [e] := by
  have hall : ∀ e' ∈ l.containing b t, e' = e := by
    intro e' he'
    obtain ⟨hmem, hb, hcontains⟩ := mem_containing.mp he
    obtain ⟨hmem', hb', hcontains'⟩ := mem_containing.mp he'
    have hfinal := (h.final_of_contains hmem).mp hcontains
    have hfinal' := (h.final_of_contains hmem').mp hcontains'
    rw [hb] at hfinal
    rw [hb'] at hfinal'
    exact h.key e' hmem' e hmem (hb'.trans hb.symm) (hfinal'.unique htl hfinal)
  have hnodup : (l.containing b t).Nodup := (List.Nodup.of_map _ h.ids).filter _
  have hreplicate := List.eq_replicate_of_mem hall
  have hle : (l.containing b t).length ≤ 1 := by
    rw [hreplicate] at hnodup
    exact List.nodup_replicate.mp hnodup
  have hpos := List.length_pos_of_mem he
  rw [hreplicate, show (l.containing b t).length = 1 by omega]
  rfl

theorem BaWf.of_same {l' : LinkTables} {pre' : List Event} (h : l.BaWf pre)
    (hevents : l'.ba_events = l.ba_events) (hlast : l'.last_ba_event_id = l.last_ba_event_id)
    (hsame : ∀ b st, announced b st pre' = announced b st pre) : l'.BaWf pre' where
  ids := hevents ▸ h.ids
  le := by rw [hevents, hlast]; exact h.le
  row := by simp only [hevents, hsame]; exact h.row
  all := by simp only [hevents, hsame]; exact h.all
  key := by rw [hevents]; exact h.key

/-- The row of an event, once it is announced again. -/
def updatedBa (be : BaEvent) (e : ℕ × BaEventRow) : ℕ × BaEventRow :=
  if e.2.Matches be.ba_id be.start_time then (e.1, be.row) else e

theorem updatedBa_fst (be : BaEvent) (e : ℕ × BaEventRow) : (updatedBa be e).1 = e.1 := by
  unfold updatedBa
  split <;> rfl

theorem updatedBa_key (be : BaEvent) (e : ℕ × BaEventRow) :
    (updatedBa be e).2.ba_id = e.2.ba_id ∧ (updatedBa be e).2.start_time = e.2.start_time := by
  unfold updatedBa
  split
  · rename_i hmatches
    exact ⟨hmatches.1.symm, hmatches.2.symm⟩
  · exact ⟨rfl, rfl⟩

theorem mem_updateBa :
    e ∈ (l.updateBa be).ba_events ↔ ∃ e₀ ∈ l.ba_events, updatedBa be e₀ = e := List.mem_map

theorem BaWf.updateBa (h : l.BaWf pre) (hhas : l.hasBa be) :
    (l.updateBa be).BaWf (pre ++ [.ba_event be]) where
  ids := by
    have hmap : (l.updateBa be).ba_events.map (·.1) = l.ba_events.map (·.1) := by
      show (l.ba_events.map (updatedBa be)).map (·.1) = _
      rw [List.map_map]
      exact List.map_congr_left fun e _ => updatedBa_fst be e
    rw [hmap]
    exact h.ids
  le e he := by
    obtain ⟨e₀, he₀, rfl⟩ := mem_updateBa.mp he
    rw [updatedBa_fst]
    exact h.le e₀ he₀
  row e he := by
    obtain ⟨e₀, he₀, rfl⟩ := mem_updateBa.mp he
    obtain ⟨hb, hst⟩ := updatedBa_key be e₀
    rw [hb, hst]
    unfold updatedBa
    split
    · rename_i hmatches
      rw [hmatches.1, hmatches.2]
      exact ⟨be, announced_self, rfl⟩
    · rename_i hmatches
      rw [announced_of_ne fun hkey => hmatches ⟨hkey.1.symm, hkey.2.symm⟩]
      exact h.row e₀ he₀
  all b st m hm := by
    by_cases hkey : be.ba_id = b ∧ be.start_time = st
    · obtain ⟨rfl, rfl⟩ := hkey
      rw [announced_self] at hm
      cases hm
      obtain ⟨e₀, he₀, hmatches⟩ := hhas
      refine ⟨updatedBa be e₀, mem_updateBa.mpr ⟨e₀, he₀, rfl⟩, ?_⟩
      rw [updatedBa, if_pos hmatches]
    · rw [announced_of_ne hkey] at hm
      obtain ⟨e₀, he₀, hrow⟩ := h.all b st m hm
      obtain ⟨hb, hst⟩ := announced_key hm
      refine ⟨updatedBa be e₀, mem_updateBa.mpr ⟨e₀, he₀, rfl⟩, ?_⟩
      have hmatches : ¬ e₀.2.Matches be.ba_id be.start_time := by
        rw [hrow]
        exact fun hmatches => hkey ⟨hmatches.1.symm.trans hb, hmatches.2.symm.trans hst⟩
      rw [updatedBa, if_neg hmatches, hrow]
  key e he e' he' hb hst := by
    obtain ⟨e₀, he₀, rfl⟩ := mem_updateBa.mp he
    obtain ⟨e₁, he₁, rfl⟩ := mem_updateBa.mp he'
    rw [(updatedBa_key be e₀).1, (updatedBa_key be e₁).1] at hb
    rw [(updatedBa_key be e₀).2, (updatedBa_key be e₁).2] at hst
    rw [h.key e₀ he₀ e₁ he₁ hb hst]

theorem mem_insertBa :
    e ∈ (l.insertBa be).ba_events ↔ e ∈ l.ba_events ∨ e = (l.last_ba_event_id + 1, be.row) := by
  show e ∈ l.ba_events ++ [_] ↔ _
  rw [List.mem_append, List.mem_singleton]

theorem BaWf.insertBa (h : l.BaWf pre) (hno : ¬ l.hasBa be) :
    (l.insertBa be).BaWf (pre ++ [.ba_event be]) where
  ids := by
    show ((l.ba_events ++ [(l.last_ba_event_id + 1, be.row)]).map (·.1)).Nodup
    rw [List.map_append, List.nodup_append]
    refine ⟨h.ids, List.nodup_singleton _, ?_⟩
    intro id hid id' hid' heq
    obtain ⟨e, he, rfl⟩ := List.mem_map.mp hid
    have hle := h.le e he
    have hnew : id' = l.last_ba_event_id + 1 := List.mem_singleton.mp hid'
    omega
  le e he := by
    show e.1 ≤ l.last_ba_event_id + 1
    rcases mem_insertBa.mp he with hold | rfl
    · exact (h.le e hold).trans (Nat.le_succ _)
    · exact le_refl _
  row e he := by
    rcases mem_insertBa.mp he with hold | rfl
    · rw [announced_of_ne fun hkey => hno ⟨e, hold, hkey.1.symm, hkey.2.symm⟩]
      exact h.row e hold
    · exact ⟨be, announced_self, rfl⟩
  all b st m hm := by
    by_cases hkey : be.ba_id = b ∧ be.start_time = st
    · obtain ⟨rfl, rfl⟩ := hkey
      rw [announced_self] at hm
      cases hm
      exact ⟨_, mem_insertBa.mpr (.inr rfl), rfl⟩
    · rw [announced_of_ne hkey] at hm
      obtain ⟨e, he, hrow⟩ := h.all b st m hm
      exact ⟨e, mem_insertBa.mpr (.inl he), hrow⟩
  key e he e' he' hb hst := by
    rcases mem_insertBa.mp he with hold | rfl <;> rcases mem_insertBa.mp he' with hold' | rfl
    · exact h.key e hold e' hold' hb hst
    · exact absurd ⟨e, hold, hb, hst⟩ hno
    · exact absurd ⟨e', hold', hb.symm, hst.symm⟩ hno
    · rfl

/-! ## The events of the KPIs -/

structure KpiWf (pre : List Event) (l : LinkTables) : Prop where
  id : ∀ k ∈ l.kpi_events, ∀ k' ∈ l.kpi_events, k.1 = k'.1 → k = k'
  le : ∀ k ∈ l.kpi_events, k.1 ≤ l.last_kpi_event_id
  row : ∀ k ∈ l.kpi_events, ∃ ke, .kpi_event ke ∈ pre ∧ ke.kpi_id = k.2.kpi_id ∧
    ke.start_time = k.2.start_time
  all : ∀ ke, .kpi_event ke ∈ pre → l.hasKpi ke

theorem KpiWf.hasKpi_iff (h : l.KpiWf pre) :
    l.hasKpi ke ↔ ¬ NotYet pre ke.kpi_id ke.start_time := by
  constructor
  · rintro ⟨k, hk, hkpi, hst⟩ hnot
    obtain ⟨ke', hke', hkpi', hst'⟩ := h.row k hk
    exact hnot ke' hke' ⟨hkpi'.trans hkpi, hst'.trans hst⟩
  · intro hseen
    by_contra hno
    refine hseen fun ke' hke' hkey => hno ?_
    obtain ⟨k, hk, hkpi, hst⟩ := h.all ke' hke'
    exact ⟨k, hk, hkpi.trans hkey.1, hst.trans hkey.2⟩

theorem KpiWf.of_same {l' : LinkTables} (h : l.KpiWf pre) (hevents : l'.kpi_events = l.kpi_events)
    (hlast : l'.last_kpi_event_id = l.last_kpi_event_id) :
    l'.KpiWf (pre ++ [.ba_event be]) where
  id := by rw [hevents]; exact h.id
  le := by rw [hevents, hlast]; exact h.le
  row k hk := by
    rw [hevents] at hk
    obtain ⟨ke, hke, hkey⟩ := h.row k hk
    exact ⟨ke, List.mem_append_left _ hke, hkey⟩
  all ke hke := by
    rcases List.mem_append.mp hke with hold | hnew
    · obtain ⟨k, hk, hkey⟩ := h.all ke hold
      exact ⟨k, hevents ▸ hk, hkey⟩
    · cases List.mem_singleton.mp hnew

/-- The row of a KPI event, once it is announced again. -/
def updatedKpi (ke : KpiEvent) (k : ℕ × KpiEventRow) : ℕ × KpiEventRow :=
  if k.2.Matches ke.kpi_id ke.start_time then (k.1, ke.row) else k

theorem updatedKpi_fst (ke : KpiEvent) (k : ℕ × KpiEventRow) : (updatedKpi ke k).1 = k.1 := by
  unfold updatedKpi
  split <;> rfl

theorem updatedKpi_key (ke : KpiEvent) (k : ℕ × KpiEventRow) :
    (updatedKpi ke k).2.kpi_id = k.2.kpi_id ∧
      (updatedKpi ke k).2.start_time = k.2.start_time := by
  unfold updatedKpi
  split
  · rename_i hmatches
    exact ⟨hmatches.1.symm, hmatches.2.symm⟩
  · exact ⟨rfl, rfl⟩

variable {k : ℕ × KpiEventRow}

theorem mem_updateKpi :
    k ∈ (l.updateKpi ke).kpi_events ↔ ∃ k₀ ∈ l.kpi_events, updatedKpi ke k₀ = k := List.mem_map

theorem KpiWf.updateKpi (h : l.KpiWf pre) (hhas : l.hasKpi ke) :
    (l.updateKpi ke).KpiWf (pre ++ [.kpi_event ke]) where
  id k hk k' hk' hid := by
    obtain ⟨k₀, hk₀, rfl⟩ := mem_updateKpi.mp hk
    obtain ⟨k₁, hk₁, rfl⟩ := mem_updateKpi.mp hk'
    rw [updatedKpi_fst, updatedKpi_fst] at hid
    rw [h.id k₀ hk₀ k₁ hk₁ hid]
  le k hk := by
    obtain ⟨k₀, hk₀, rfl⟩ := mem_updateKpi.mp hk
    rw [updatedKpi_fst]
    exact h.le k₀ hk₀
  row k hk := by
    obtain ⟨k₀, hk₀, rfl⟩ := mem_updateKpi.mp hk
    obtain ⟨hkpi, hst⟩ := updatedKpi_key ke k₀
    obtain ⟨ke', hke', hkey⟩ := h.row k₀ hk₀
    rw [hkpi, hst]
    exact ⟨ke', List.mem_append_left _ hke', hkey⟩
  all ke' hke' := by
    have hold : l.hasKpi ke' := by
      rcases List.mem_append.mp hke' with hold | hnew
      · exact h.all ke' hold
      · cases List.mem_singleton.mp hnew
        exact hhas
    obtain ⟨k, hk, hkey⟩ := hold
    refine ⟨updatedKpi ke k, mem_updateKpi.mpr ⟨k, hk, rfl⟩, ?_⟩
    obtain ⟨hkpi, hst⟩ := updatedKpi_key ke k
    exact ⟨hkpi.trans hkey.1, hst.trans hkey.2⟩

theorem mem_insertKpi :
    k ∈ (l.insertKpi ke).kpi_events ↔
      k ∈ l.kpi_events ∨ k = (l.last_kpi_event_id + 1, ke.row) := by
  show k ∈ l.kpi_events ++ [_] ↔ _
  rw [List.mem_append, List.mem_singleton]

theorem KpiWf.insertKpi (h : l.KpiWf pre) :
    (l.insertKpi ke).KpiWf (pre ++ [.kpi_event ke]) where
  id k hk k' hk' hid := by
    rcases mem_insertKpi.mp hk with hold | rfl <;> rcases mem_insertKpi.mp hk' with hold' | rfl
    · exact h.id k hold k' hold' hid
    · have hle := h.le k hold
      dsimp only at hid
      omega
    · have hle := h.le k' hold'
      dsimp only at hid
      omega
    · rfl
  le k hk := by
    show k.1 ≤ l.last_kpi_event_id + 1
    rcases mem_insertKpi.mp hk with hold | rfl
    · exact (h.le k hold).trans (Nat.le_succ _)
    · exact le_refl _
  row k hk := by
    rcases mem_insertKpi.mp hk with hold | rfl
    · obtain ⟨ke', hke', hkey⟩ := h.row k hold
      exact ⟨ke', List.mem_append_left _ hke', hkey⟩
    · exact ⟨ke, List.mem_append_right _ (List.mem_singleton_self _), rfl, rfl⟩
  all ke' hke' := by
    rcases List.mem_append.mp hke' with hold | hnew
    · obtain ⟨k, hk, hkey⟩ := h.all ke' hold
      exact ⟨k, mem_insertKpi.mpr (.inl hk), hkey⟩
    · cases List.mem_singleton.mp hnew
      exact ⟨_, mem_insertKpi.mpr (.inr rfl), rfl, rfl⟩

/-! ## The links -/

/-- The links of a KPI event. -/
def linksOf (l : LinkTables) (kpi_event_id : ℕ) : List (ℕ × ℕ × ℕ) :=
  l.relations.filter fun rel => rel.2.2 = kpi_event_id

theorem mem_linksOf {rel : ℕ × ℕ × ℕ} {id : ℕ} :
    rel ∈ l.linksOf id ↔ rel ∈ l.relations ∧ rel.2.2 = id := by
  rw [linksOf, List.mem_filter, decide_eq_true_iff]

structure RelWf (l : LinkTables) : Prop where
  id : ∀ rel ∈ l.relations, ∀ rel' ∈ l.relations, rel.1 = rel'.1 → rel = rel'
  pos : ∀ rel ∈ l.relations, 0 < rel.1
  le : ∀ rel ∈ l.relations, rel.1 ≤ l.last_relation_id
  ba_le : ∀ rel ∈ l.relations, rel.2.1 ≤ l.last_ba_event_id
  kpi_le : ∀ rel ∈ l.relations, rel.2.2 ≤ l.last_kpi_event_id

/-- The links that wait for a BA event are those of the KPI events that start with it. -/
structure EntryWf (baOf : ℕ → ℕ) (pre : List Event) (l : LinkTables) : Prop where
  seen : ∀ b t r, l.last_inserted_kpi b t = some r →
    ∃ ke, .kpi_event ke ∈ pre ∧ ke.ba_id = b ∧ ke.start_time = t
  le : ∀ b t r, l.last_inserted_kpi b t = some r → r ≤ l.last_relation_id
  own : ∀ b t r, l.last_inserted_kpi b t = some r → ∀ rel ∈ l.relations, rel.1 = r →
    ∀ k ∈ l.kpi_events, k.1 = rel.2.2 → baOf k.2.kpi_id = b ∧ k.2.start_time = t
  /-- A link that does not wait any more is older than an event of the BA. -/
  all : ∀ ke, .kpi_event ke ∈ pre → l.last_inserted_kpi ke.ba_id ke.start_time = none →
    ∃ e ∈ l.ba_events, e.2.ba_id = ke.ba_id ∧ ke.start_time < e.2.start_time

/-- A link waits for the event that starts with its KPI event, and contains it in the end. -/
structure Waits (es pre : List Event) (l : LinkTables) (b : ℕ) (t : ℤ) (r : ℕ) : Prop where
  final : Final es b t t
  new : announced b t pre = none
  entry : l.last_inserted_kpi b t = some r

/-- A KPI event has one link, to the right event or to one before that it waits to leave. -/
def Right (es pre : List Event) (l : LinkTables) (id b : ℕ) (t : ℤ) : Prop :=
  ∃ r, ∃ e ∈ l.ba_events, l.linksOf id = [(r, e.1, id)] ∧ e.2.ba_id = b ∧
    (Final es b t e.2.start_time ∨ Waits es pre l b t r)

/-- No link of a KPI event is to the right event, or will be. -/
def Wrong (es pre : List Event) (l : LinkTables) (id b : ℕ) (t : ℤ) : Prop :=
  ∀ rel ∈ l.linksOf id, (∀ e ∈ l.ba_events, e.1 = rel.2.1 → ¬ Final es b t e.2.start_time) ∧
    ¬ Waits es pre l b t rel.1

structure Inv (baOf : ℕ → ℕ) (es pre : List Event) (l : LinkTables) : Prop where
  ba : l.BaWf pre
  kpi : l.KpiWf pre
  rel : l.RelWf
  entry : l.EntryWf baOf pre
  right : ∀ k ∈ l.kpi_events, Timed es k.2.kpi_id k.2.start_time →
    Right es pre l k.1 (baOf k.2.kpi_id) k.2.start_time
  wrong : ∀ k ∈ l.kpi_events, ¬ Timed es k.2.kpi_id k.2.start_time →
    Wrong es pre l k.1 (baOf k.2.kpi_id) k.2.start_time

/-! ### A KPI event is announced again -/

section

variable (htl : Timelines baOf (pre ++ [.kpi_event ke]))

include htl

/-- An event that is stored was announced, for the same BA. -/
theorem KpiWf.seen (h : l.KpiWf pre) (hhas : l.hasKpi ke) :
    ∃ ke', .kpi_event ke' ∈ pre ∧ ke'.ba_id = ke.ba_id ∧ ke'.start_time = ke.start_time := by
  obtain ⟨k, hk, hkpi, hst⟩ := hhas
  obtain ⟨ke', hke', hkpi', hst'⟩ := h.row k hk
  refine ⟨ke', hke', ?_, hst'.trans hst⟩
  rw [htl.kpi ke' (List.mem_append_left _ hke'),
    htl.kpi ke (List.mem_append_right _ (List.mem_singleton_self _)), hkpi', hkpi]

theorem EntryWf.updateKpi (h : l.EntryWf baOf pre) (hkpi : l.KpiWf pre) (hhas : l.hasKpi ke) :
    (l.updateKpi ke).EntryWf baOf (pre ++ [.kpi_event ke]) where
  seen b t r hr := by
    obtain ⟨ke', hke', hkey⟩ := h.seen b t r hr
    exact ⟨ke', List.mem_append_left _ hke', hkey⟩
  le := h.le
  own b t r hr rel hrel hid k hk hkid := by
    obtain ⟨k₀, hk₀, rfl⟩ := mem_updateKpi.mp hk
    obtain ⟨hkpi, hst⟩ := updatedKpi_key ke k₀
    rw [hkpi, hst]
    exact h.own b t r hr rel hrel hid k₀ hk₀ ((updatedKpi_fst ke k₀).symm.trans hkid)
  all ke' hke' hnone := by
    rcases List.mem_append.mp hke' with hold | hnew
    · exact h.all ke' hold hnone
    · cases List.mem_singleton.mp hnew
      obtain ⟨ke₀, hke₀, hb, hst⟩ := hkpi.seen htl hhas
      have hnone₀ : l.last_inserted_kpi ke₀.ba_id ke₀.start_time = none := by
        rw [hb, hst]
        exact hnone
      rw [← hb, ← hst]
      exact h.all ke₀ hke₀ hnone₀

theorem Inv.updateKpi (h : l.Inv baOf es pre) (hhas : l.hasKpi ke) :
    (l.updateKpi ke).Inv baOf es (pre ++ [.kpi_event ke]) where
  ba := h.ba.of_same rfl rfl fun _ _ => announced_append_kpi ke
  kpi := h.kpi.updateKpi hhas
  rel := ⟨h.rel.id, h.rel.pos, h.rel.le, h.rel.ba_le, h.rel.kpi_le⟩
  entry := h.entry.updateKpi htl h.kpi hhas
  right k hk htimed := by
    obtain ⟨k₀, hk₀, rfl⟩ := mem_updateKpi.mp hk
    obtain ⟨hkpi, hst⟩ := updatedKpi_key ke k₀
    rw [hkpi, hst] at htimed ⊢
    rw [updatedKpi_fst]
    obtain ⟨r, e, he, hlinks, hb, hfinal⟩ := h.right k₀ hk₀ htimed
    refine ⟨r, e, he, hlinks, hb, hfinal.imp_right fun hwaits => ?_⟩
    exact ⟨hwaits.final, (announced_append_kpi ke).trans hwaits.new, hwaits.entry⟩
  wrong k hk htimed := by
    obtain ⟨k₀, hk₀, rfl⟩ := mem_updateKpi.mp hk
    obtain ⟨hkpi, hst⟩ := updatedKpi_key ke k₀
    rw [hkpi, hst] at htimed ⊢
    rw [updatedKpi_fst]
    intro rel hrel
    obtain ⟨hnot, hwaits⟩ := h.wrong k₀ hk₀ htimed rel hrel
    refine ⟨hnot, fun hwaits' => hwaits ?_⟩
    exact ⟨hwaits'.final, (announced_append_kpi ke).symm.trans hwaits'.new, hwaits'.entry⟩

/-! ### A KPI event is announced first -/

omit htl in
theorem newLinks_nil (h : l.containing ke.ba_id ke.start_time = []) : l.newLinks ke = [] := by
  rw [newLinks, h]
  rfl

omit htl in
theorem newLinks_singleton {e : ℕ × BaEventRow}
    (h : l.containing ke.ba_id ke.start_time = [e]) :
    l.newLinks ke = [(l.last_relation_id + 1, e.1, l.last_kpi_event_id + 1)] := by
  rw [newLinks, h]
  rfl

/-- A new KPI event is linked once, or not at all. -/
theorem BaWf.newLinks_cases (h : l.BaWf pre) :
    l.containing ke.ba_id ke.start_time = [] ∧ l.newLinks ke = [] ∨
      ∃ e ∈ l.ba_events, e.2.ba_id = ke.ba_id ∧ e.2.Contains ke.start_time ∧
        l.containing ke.ba_id ke.start_time = [e] ∧
        l.newLinks ke = [(l.last_relation_id + 1, e.1, l.last_kpi_event_id + 1)] := by
  cases hcontaining : l.containing ke.ba_id ke.start_time with
  | nil => exact .inl ⟨rfl, newLinks_nil hcontaining⟩
  | cons e es =>
    have hmem : e ∈ l.containing ke.ba_id ke.start_time := by
      rw [hcontaining]
      exact List.mem_cons_self
    have hone := h.containing_eq htl.of_append hmem
    obtain ⟨he, hb, hcontains⟩ := mem_containing.mp hmem
    exact .inr ⟨e, he, hb, hcontains, hcontaining ▸ hone, newLinks_singleton hone⟩

theorem RelWf.insertKpi (h : l.RelWf) (hba : l.BaWf pre) : (l.insertKpi ke).RelWf := by
  rcases hba.newLinks_cases htl with ⟨hnone, hnil⟩ | ⟨e, he, -, -, hone, hsingle⟩
  · have hrelations : (l.insertKpi ke).relations = l.relations := by
      show l.relations ++ l.newLinks ke = _
      rw [hnil, List.append_nil]
    refine ⟨?_, ?_, ?_, ?_, ?_⟩ <;> rw [hrelations]
    · exact h.id
    · exact h.pos
    · exact fun rel hrel => (h.le rel hrel).trans (Nat.le_add_right _ _)
    · exact h.ba_le
    · exact fun rel hrel => (h.kpi_le rel hrel).trans (Nat.le_succ _)
  · have hmem : ∀ rel ∈ (l.insertKpi ke).relations, rel ∈ l.relations ∨
        rel = (l.last_relation_id + 1, e.1, l.last_kpi_event_id + 1) := by
      intro rel hrel
      have hrel : rel ∈ l.relations ++ l.newLinks ke := hrel
      rw [hsingle, List.mem_append, List.mem_singleton] at hrel
      exact hrel
    have hlast : (l.insertKpi ke).last_relation_id = l.last_relation_id + 1 := by
      show l.last_relation_id + _ = _
      rw [hone]
      rfl
    refine ⟨?_, ?_, ?_, ?_, ?_⟩
    · intro rel hrel rel' hrel' hid
      rcases hmem rel hrel with hold | rfl <;> rcases hmem rel' hrel' with hold' | rfl
      · exact h.id rel hold rel' hold' hid
      · have hle := h.le rel hold
        dsimp only at hid
        omega
      · have hle := h.le rel' hold'
        dsimp only at hid
        omega
      · rfl
    · intro rel hrel
      rcases hmem rel hrel with hold | rfl
      · exact h.pos rel hold
      · exact Nat.succ_pos _
    · intro rel hrel
      rw [hlast]
      rcases hmem rel hrel with hold | rfl
      · exact (h.le rel hold).trans (Nat.le_succ _)
      · exact le_refl _
    · intro rel hrel
      rcases hmem rel hrel with hold | rfl
      · exact h.ba_le rel hold
      · exact hba.le e he
    · intro rel hrel
      rcases hmem rel hrel with hold | rfl
      · exact (h.kpi_le rel hold).trans (Nat.le_succ _)
      · exact le_refl _

omit htl in
theorem insertKpi_entry (b : ℕ) (t : ℤ) : (l.insertKpi ke).last_inserted_kpi b t =
    if b = ke.ba_id ∧ t = ke.start_time then some (l.newEntry ke) else l.last_inserted_kpi b t := by
  show Function.update l.last_inserted_kpi ke.ba_id _ b t = _
  by_cases hb : b = ke.ba_id
  · subst hb
    rw [Function.update_self]
    by_cases ht : t = ke.start_time
    · subst ht
      rw [Function.update_self, if_pos ⟨rfl, rfl⟩]
    · rw [Function.update_of_ne ht, if_neg fun h => ht h.2]
  · rw [Function.update_of_ne hb, if_neg fun h => hb h.1]

omit htl in
/-- A link that waits already is not replaced. -/
theorem insertKpi_entry_of_some {r : ℕ} (h : l.last_inserted_kpi b t = some r) :
    (l.insertKpi ke).last_inserted_kpi b t = some r := by
  rw [insertKpi_entry]
  split
  · rename_i hkey
    obtain ⟨rfl, rfl⟩ := hkey
    rw [newEntry, h]
    rfl
  · exact h

omit htl in
/-- No other link begins to wait than the new one. -/
theorem insertKpi_entry_old {r : ℕ} (h : (l.insertKpi ke).last_inserted_kpi b t = some r)
    (hpos : 0 < r) (hle : r ≤ l.last_relation_id) : l.last_inserted_kpi b t = some r := by
  rw [insertKpi_entry] at h
  split at h
  · rename_i hkey
    obtain ⟨rfl, rfl⟩ := hkey
    rw [newEntry] at h
    cases hentry : l.last_inserted_kpi ke.ba_id ke.start_time with
    | some r' =>
      rw [hentry] at h
      exact h
    | none =>
      rw [hentry, Option.getD_none, Option.some.injEq] at h
      split at h <;> omega
  · exact h

omit htl in
theorem insertKpi_entry_new {r : ℕ} (h : (l.insertKpi ke).last_inserted_kpi b t = some r)
    (hnone : l.last_inserted_kpi b t = none) : b = ke.ba_id ∧ t = ke.start_time := by
  rw [insertKpi_entry] at h
  split at h
  · assumption
  · rw [hnone] at h
    cases h

theorem mem_insertKpi_relations (hba : l.BaWf pre) {rel : ℕ × ℕ × ℕ}
    (hrel : rel ∈ (l.insertKpi ke).relations) :
    rel ∈ l.relations ∨ rel.1 = l.last_relation_id + 1 ∧ rel.2.2 = l.last_kpi_event_id + 1 ∧
      ∃ e ∈ l.ba_events, e.1 = rel.2.1 ∧ e.2.ba_id = ke.ba_id ∧ e.2.Contains ke.start_time := by
  have hrel : rel ∈ l.relations ++ l.newLinks ke := hrel
  rcases hba.newLinks_cases htl with ⟨-, hnil⟩ | ⟨e, he, hb, hcontains, -, hsingle⟩
  · rw [hnil, List.append_nil] at hrel
    exact .inl hrel
  · rw [hsingle, List.mem_append, List.mem_singleton] at hrel
    rcases hrel with hold | rfl
    · exact .inl hold
    · exact .inr ⟨rfl, rfl, e, he, rfl, hb, hcontains⟩

theorem EntryWf.insertKpi (h : l.EntryWf baOf pre) (hba : l.BaWf pre) (hkpi : l.KpiWf pre)
    (hrel : l.RelWf) : (l.insertKpi ke).EntryWf baOf (pre ++ [.kpi_event ke]) where
  seen b t r hr := by
    cases hentry : l.last_inserted_kpi b t with
    | some r' =>
      obtain ⟨ke', hke', hkey⟩ := h.seen b t r' hentry
      exact ⟨ke', List.mem_append_left _ hke', hkey⟩
    | none =>
      obtain ⟨rfl, rfl⟩ := insertKpi_entry_new hr hentry
      exact ⟨ke, List.mem_append_right _ (List.mem_singleton_self _), rfl, rfl⟩
  le b t r hr := by
    show r ≤ l.last_relation_id + (l.containing ke.ba_id ke.start_time).length
    cases hentry : l.last_inserted_kpi b t with
    | some r' =>
      rw [insertKpi_entry_of_some hentry] at hr
      cases hr
      exact (h.le b t r hentry).trans (Nat.le_add_right _ _)
    | none =>
      obtain ⟨rfl, rfl⟩ := insertKpi_entry_new hr hentry
      rw [insertKpi_entry, if_pos ⟨rfl, rfl⟩, newEntry, hentry, Option.getD_none,
        Option.some.injEq] at hr
      rw [← hr]
      cases l.containing ke.ba_id ke.start_time with
      | nil => exact Nat.zero_le _
      | cons e es => exact Nat.add_le_add_left (Nat.succ_le_succ (Nat.zero_le _)) _
  own b t r hr rel hmem hid k hk hkid := by
    rcases mem_insertKpi_relations htl hba hmem with hold | ⟨hnew, hnewk, -⟩ <;>
      rcases mem_insertKpi.mp hk with holdk | rfl
    · have hentry := insertKpi_entry_old hr (hid ▸ hrel.pos rel hold) (hid ▸ hrel.le rel hold)
      exact h.own b t r hentry rel hold hid k holdk hkid
    · have hle := hrel.kpi_le rel hold
      dsimp only at hkid
      omega
    · have hle := hkpi.le k holdk
      omega
    · have hentry : l.last_inserted_kpi b t = none := by
        by_contra hsome
        obtain ⟨r', hr'⟩ := Option.ne_none_iff_exists'.mp hsome
        have hle := h.le b t r' hr'
        rw [insertKpi_entry_of_some hr'] at hr
        cases hr
        omega
      obtain ⟨rfl, rfl⟩ := insertKpi_entry_new hr hentry
      exact ⟨(htl.kpi ke (List.mem_append_right _ (List.mem_singleton_self _))).symm, rfl⟩
  all ke' hke' hnone := by
    cases hentry : l.last_inserted_kpi ke'.ba_id ke'.start_time with
    | some r =>
      rw [insertKpi_entry_of_some hentry] at hnone
      cases hnone
    | none =>
      rcases List.mem_append.mp hke' with hold | hnew
      · exact h.all ke' hold hentry
      · cases List.mem_singleton.mp hnew
        rw [insertKpi_entry, if_pos ⟨rfl, rfl⟩] at hnone
        cases hnone

/-- The other KPI events keep their links. -/
theorem linksOf_insertKpi (hba : l.BaWf pre) {id : ℕ} (hle : id ≤ l.last_kpi_event_id) :
    (l.insertKpi ke).linksOf id = l.linksOf id := by
  show (l.relations ++ l.newLinks ke).filter _ = _
  rw [List.filter_append]
  have hnew : ((l.newLinks ke).filter fun rel => rel.2.2 = id) = [] := by
    rw [List.filter_eq_nil_iff]
    intro rel hrel hid
    have hid := of_decide_eq_true hid
    rcases hba.newLinks_cases htl with ⟨-, hnil⟩ | ⟨e, -, -, -, -, hsingle⟩
    · rw [hnil] at hrel
      cases hrel
    · rw [hsingle] at hrel
      cases List.mem_singleton.mp hrel
      dsimp only at hid
      omega
  rw [hnew, List.append_nil]
  rfl

/-- The links of the new one are new. -/
theorem linksOf_insertKpi_self (hrel : l.RelWf) (hba : l.BaWf pre) :
    (l.insertKpi ke).linksOf (l.last_kpi_event_id + 1) = l.newLinks ke := by
  show (l.relations ++ l.newLinks ke).filter _ = _
  rw [List.filter_append]
  have hold : (l.relations.filter fun rel => rel.2.2 = l.last_kpi_event_id + 1) = [] := by
    rw [List.filter_eq_nil_iff]
    intro rel hmem hid
    have hle := hrel.kpi_le rel hmem
    have hid := of_decide_eq_true hid
    omega
  rw [hold, List.nil_append, List.filter_eq_self]
  intro rel hmem
  rcases hba.newLinks_cases htl with ⟨-, hnil⟩ | ⟨e, -, -, -, -, hsingle⟩
  · rw [hnil] at hmem
    cases hmem
  · rw [hsingle] at hmem
    cases List.mem_singleton.mp hmem
    exact decide_eq_true rfl

theorem Right.insertKpi (hba : l.BaWf pre) {id : ℕ} (hle : id ≤ l.last_kpi_event_id)
    (h : Right es pre l id b t) :
    Right es (pre ++ [.kpi_event ke]) (l.insertKpi ke) id b t := by
  obtain ⟨r, e, he, hlinks, hb, hfinal⟩ := h
  refine ⟨r, e, he, (linksOf_insertKpi htl hba hle).trans hlinks, hb, hfinal.imp_right ?_⟩
  intro hwaits
  exact ⟨hwaits.final, (announced_append_kpi ke).trans hwaits.new,
    insertKpi_entry_of_some hwaits.entry⟩

theorem Wrong.insertKpi (hba : l.BaWf pre) (hrel : l.RelWf) {id : ℕ}
    (hle : id ≤ l.last_kpi_event_id) (h : Wrong es pre l id b t) :
    Wrong es (pre ++ [.kpi_event ke]) (l.insertKpi ke) id b t := by
  intro rel hmem
  rw [linksOf_insertKpi htl hba hle] at hmem
  obtain ⟨hnot, hwaits⟩ := h rel hmem
  have hold := (mem_linksOf.mp hmem).1
  refine ⟨hnot, fun hwaits' => hwaits ?_⟩
  exact ⟨hwaits'.final, (announced_append_kpi ke).symm.trans hwaits'.new,
    insertKpi_entry_old hwaits'.entry (hrel.pos rel hold) (hrel.le rel hold)⟩

end

/-- What contains the start of a new KPI event is what it is linked to. -/
theorem linksOf_new (htl : Timelines baOf (pre ++ [.kpi_event ke])) (hba : l.BaWf pre)
    (hrel : l.RelWf) (he : e ∈ l.ba_events) (hb : e.2.ba_id = ke.ba_id)
    (hcontains : e.2.Contains ke.start_time) :
    l.containing ke.ba_id ke.start_time = [e] ∧
      (l.insertKpi ke).linksOf (l.last_kpi_event_id + 1) =
        [(l.last_relation_id + 1, e.1, l.last_kpi_event_id + 1)] := by
  have hone := hba.containing_eq htl.of_append (mem_containing.mpr ⟨he, hb, hcontains⟩)
  exact ⟨hone, (linksOf_insertKpi_self htl hrel hba).trans (newLinks_singleton hone)⟩

theorem right_of_onTime (htl : Timelines baOf (pre ++ .kpi_event ke :: post)) (hba : l.BaWf pre)
    (hrel : l.RelWf) (hentry : l.EntryWf baOf pre)
    (htime : OnTime (pre ++ .kpi_event ke :: post) pre ke) :
    Right (pre ++ .kpi_event ke :: post) (pre ++ [.kpi_event ke]) (l.insertKpi ke)
      (l.last_kpi_event_id + 1) ke.ba_id ke.start_time := by
  have htl' := htl.of_append_cons
  obtain ⟨st, hfinal, hcase⟩ := htime
  cases hann : announced ke.ba_id st pre with
  | some m =>
    -- the event was announced: it contains the start already
    obtain ⟨e, he, hrow⟩ := hba.all _ _ _ hann
    obtain ⟨hb, hst⟩ := announced_key hann
    have hcontains : e.2.Contains ke.start_time := by
      rw [hrow]
      exact hfinal.contains htl hann
    have hb : e.2.ba_id = ke.ba_id := by rw [hrow]; exact hb
    have hst : e.2.start_time = st := by rw [hrow]; exact hst
    obtain ⟨-, hlinks⟩ := linksOf_new htl' hba hrel he hb hcontains
    exact ⟨_, e, he, hlinks, hb, .inl (hst ▸ hfinal)⟩
  | none =>
    rw [hann] at hcase
    obtain ⟨rfl, ⟨last, hlast, hopen⟩, hfirst⟩ := hcase.resolve_left Bool.false_ne_true
    -- the event before contains the start for now
    obtain ⟨hlb, hself⟩ := htl.of_append.announced_latest hlast
    obtain ⟨e, he, hrow⟩ := hba.all _ _ _ hself
    have hsome : (announced ke.ba_id ke.start_time (pre ++ .kpi_event ke :: post)).isSome := by
      obtain ⟨be, hbe, -⟩ := hfinal
      rw [hbe]
      rfl
    have hahead := htl.ahead_of_new hlast hann hsome
    have hcontains : e.2.Contains ke.start_time := by
      rw [hrow]
      refine ⟨hahead.1.le, fun end_time hclosed => ?_⟩
      rw [show last.row.end_time = none from hopen] at hclosed
      cases hclosed
    have hb : e.2.ba_id = ke.ba_id := by rw [hrow]; exact hlb
    obtain ⟨hone, hlinks⟩ := linksOf_new htl' hba hrel he hb hcontains
    refine ⟨_, e, he, hlinks, hb, .inr ⟨hfinal, (announced_append_kpi ke).trans hann, ?_⟩⟩
    have hentry : l.last_inserted_kpi ke.ba_id ke.start_time = none := by
      by_contra hsome
      obtain ⟨r, hr⟩ := Option.ne_none_iff_exists'.mp hsome
      obtain ⟨ke', hke', hkey⟩ := hentry.seen _ _ _ hr
      exact hfirst ke' hke' hkey
    rw [insertKpi_entry, if_pos ⟨rfl, rfl⟩, newEntry, hentry, hone]
    rfl

theorem wrong_of_not_onTime (htl : Timelines baOf (pre ++ .kpi_event ke :: post))
    (hba : l.BaWf pre) (hrel : l.RelWf) (hentry : l.EntryWf baOf pre)
    (htime : ¬ OnTime (pre ++ .kpi_event ke :: post) pre ke) :
    Wrong (pre ++ .kpi_event ke :: post) (pre ++ [.kpi_event ke]) (l.insertKpi ke)
      (l.last_kpi_event_id + 1) ke.ba_id ke.start_time := by
  have htl' := htl.of_append_cons
  intro rel hmem
  rw [linksOf_insertKpi_self htl' hrel hba] at hmem
  rcases hba.newLinks_cases htl' with ⟨-, hnil⟩ | ⟨e, he, hb, hcontains, hone, hsingle⟩
  · rw [hnil] at hmem
    cases hmem
  · rw [hsingle] at hmem
    cases List.mem_singleton.mp hmem
    refine ⟨fun e' he' hid hfinal => htime ?_, fun hwaits => htime ?_⟩
    · cases hba.id_inj he' he hid
      exact ⟨e.2.start_time, hfinal, .inl (hb ▸ hba.isSome he)⟩
    · have hann : announced ke.ba_id ke.start_time pre = none :=
        (announced_append_kpi ke).symm.trans hwaits.new
      have hsome : (announced ke.ba_id ke.start_time (pre ++ .kpi_event ke :: post)).isSome := by
        obtain ⟨be, hbe, -⟩ := hwaits.final
        rw [hbe]
        rfl
      obtain ⟨be, hbe, hrow⟩ := hba.row e he
      rw [hb] at hbe
      obtain ⟨last, hlast, hle, hself⟩ := htl.of_append.latest_of_announced hbe
      have hahead := htl.ahead_of_new hlast hann hsome
      refine ⟨ke.start_time, hwaits.final, .inr ⟨rfl, ⟨last, hlast, ?_⟩, ?_⟩⟩
      · -- the event that contains the start is the latest one, and it is not ended
        by_contra hclosed
        obtain ⟨end_time, hend⟩ := Option.ne_none_iff_exists'.mp hclosed
        have hbefore := hahead.2 end_time hend
        rcases hle.lt_or_eq with hlt | heq
        · obtain ⟨end_time', hend', hle'⟩ := htl.of_append.ended hbe hself hlt
          have := hcontains.2 end_time' (hrow ▸ hend')
          have := hahead.1
          omega
        · rw [heq, hself] at hbe
          cases hbe
          have := hcontains.2 end_time (hrow ▸ hend)
          omega
      · -- no link waits yet
        intro ke' hke' hkey
        have hnone : l.last_inserted_kpi ke'.ba_id ke'.start_time = none := by
          rw [hkey.1, hkey.2]
          by_contra hsome
          obtain ⟨r, hr⟩ := Option.ne_none_iff_exists'.mp hsome
          have hr' := hwaits.entry
          rw [insertKpi_entry_of_some hr] at hr'
          have hle := hentry.le _ _ _ hr
          cases hr'
          omega
        obtain ⟨e', he', hb', hlt⟩ := hentry.all ke' hke' hnone
        obtain ⟨be', hbe', -⟩ := hba.row e' he'
        rw [hb', hkey.1] at hbe'
        obtain ⟨last', hlast', hle', -⟩ := htl.of_append.latest_of_announced hbe'
        rw [hlast] at hlast'
        cases hlast'
        have := hahead.1
        have := hkey.2
        omega

theorem Inv.insertKpi (htl : Timelines baOf (pre ++ .kpi_event ke :: post))
    (h : l.Inv baOf (pre ++ .kpi_event ke :: post) pre) (hno : ¬ l.hasKpi ke) :
    (l.insertKpi ke).Inv baOf (pre ++ .kpi_event ke :: post) (pre ++ [.kpi_event ke]) := by
  have htl' := htl.of_append_cons
  have hnot : NotYet pre ke.kpi_id ke.start_time := not_not.mp (mt h.kpi.hasKpi_iff.mpr hno)
  have hb : ke.ba_id = baOf ke.kpi_id :=
    htl'.kpi ke (List.mem_append_right _ (List.mem_singleton_self _))
  refine ⟨h.ba.of_same rfl rfl fun _ _ => announced_append_kpi ke, h.kpi.insertKpi,
    h.rel.insertKpi htl' h.ba, h.entry.insertKpi htl' h.ba h.kpi h.rel, ?_, ?_⟩
  · intro k hk htimed
    rcases mem_insertKpi.mp hk with hold | rfl
    · exact (h.right k hold htimed).insertKpi htl' h.ba (h.kpi.le k hold)
    · have hright := right_of_onTime htl h.ba h.rel h.entry ((timed_iff rfl hnot).mp htimed)
      rw [hb] at hright
      exact hright
  · intro k hk htimed
    rcases mem_insertKpi.mp hk with hold | rfl
    · exact (h.wrong k hold htimed).insertKpi htl' h.ba h.rel (h.kpi.le k hold)
    · have hwrong := wrong_of_not_onTime htl h.ba h.rel h.entry
        (fun htime => htimed ((timed_iff rfl hnot).mpr htime))
      rw [hb] at hwrong
      exact hwrong

/-! ### A BA event is announced again -/

theorem Inv.updateBa (h : l.Inv baOf es pre) (hhas : l.hasBa be) :
    (l.updateBa be).Inv baOf es (pre ++ [.ba_event be]) := by
  -- what is not announced yet is another event
  have hnew : ∀ b t, announced b t (pre ++ [.ba_event be]) = none ↔ announced b t pre = none := by
    intro b t
    by_cases hkey : be.ba_id = b ∧ be.start_time = t
    · obtain ⟨rfl, rfl⟩ := hkey
      rw [announced_self]
      have hsome := h.ba.hasBa_iff.mp hhas
      constructor
      · intro hnone
        cases hnone
      · intro hnone
        rw [hnone] at hsome
        cases hsome
    · rw [announced_of_ne hkey]
  refine ⟨h.ba.updateBa hhas, h.kpi.of_same rfl rfl,
    ⟨h.rel.id, h.rel.pos, h.rel.le, h.rel.ba_le, h.rel.kpi_le⟩,
    ⟨?_, h.entry.le, h.entry.own, ?_⟩, ?_, ?_⟩
  · intro b t r hr
    obtain ⟨ke, hke, hkey⟩ := h.entry.seen b t r hr
    exact ⟨ke, List.mem_append_left _ hke, hkey⟩
  · intro ke hke hnone
    rcases List.mem_append.mp hke with hold | hba
    · obtain ⟨e, he, hb, hlt⟩ := h.entry.all ke hold hnone
      obtain ⟨hb', hst'⟩ := updatedBa_key be e
      exact ⟨_, mem_updateBa.mpr ⟨e, he, rfl⟩, hb'.trans hb, hst' ▸ hlt⟩
    · cases List.mem_singleton.mp hba
  · intro k hk htimed
    obtain ⟨r, e, he, hlinks, hb, hfinal⟩ := h.right k hk htimed
    obtain ⟨hb', hst'⟩ := updatedBa_key be e
    refine ⟨r, _, mem_updateBa.mpr ⟨e, he, rfl⟩, ?_, hb'.trans hb, ?_⟩
    · rw [updatedBa_fst]
      exact hlinks
    · rw [hst']
      refine hfinal.imp_right fun hwaits => ?_
      exact ⟨hwaits.final, (hnew _ _).mpr hwaits.new, hwaits.entry⟩
  · intro k hk htimed rel hrel
    obtain ⟨hnot, hwaits⟩ := h.wrong k hk htimed rel hrel
    refine ⟨fun e' he' hid => ?_, fun hwaits' => hwaits ?_⟩
    · obtain ⟨e, he, rfl⟩ := mem_updateBa.mp he'
      rw [(updatedBa_key be e).2]
      exact hnot e he ((updatedBa_fst be e).symm.trans hid)
    · exact ⟨hwaits'.final, (hnew _ _).mp hwaits'.new, hwaits'.entry⟩

/-! ### A BA event is announced first -/

theorem insertBa_entry {b : ℕ} {t : ℤ} {r : ℕ} :
    (l.insertBa be).last_inserted_kpi b t = some r ↔
      l.last_inserted_kpi b t = some r ∧ ¬ (b = be.ba_id ∧ t < be.start_time) := by
  show Function.update l.last_inserted_kpi be.ba_id _ b t = some r ↔ _
  by_cases hb : b = be.ba_id
  · subst hb
    rw [Function.update_self, ReportingStream.removeOlder]
    split
    · rename_i hlt
      exact ⟨fun h => (by cases h), fun h => absurd ⟨rfl, hlt⟩ h.2⟩
    · rename_i hlt
      exact ⟨fun h => ⟨h, fun hkey => hlt hkey.2⟩, fun h => h.1⟩
  · rw [Function.update_of_ne hb]
    exact ⟨fun h => ⟨h, fun hkey => hb hkey.1⟩, fun h => h.1⟩

theorem relinked_fst (l : LinkTables) (be : BaEvent) (rel : ℕ × ℕ × ℕ) :
    (l.relinked be rel).1 = rel.1 ∧ (l.relinked be rel).2.2 = rel.2.2 := by
  unfold relinked
  split <;> exact ⟨rfl, rfl⟩

theorem linksOf_insertBa (id : ℕ) :
    (l.insertBa be).linksOf id = (l.linksOf id).map (l.relinked be) := by
  show (l.relations.map (l.relinked be)).filter _ = _
  rw [List.filter_map, linksOf]
  congr 1
  refine List.filter_congr fun rel _ => ?_
  rw [Function.comp_apply, (relinked_fst l be rel).2]

theorem RelWf.insertBa (h : l.RelWf) : (l.insertBa be).RelWf where
  id rel hrel rel' hrel' hid := by
    obtain ⟨rel₀, hrel₀, rfl⟩ := List.mem_map.mp hrel
    obtain ⟨rel₁, hrel₁, rfl⟩ := List.mem_map.mp hrel'
    rw [(relinked_fst l be rel₀).1, (relinked_fst l be rel₁).1] at hid
    rw [h.id rel₀ hrel₀ rel₁ hrel₁ hid]
  pos rel hrel := by
    obtain ⟨rel₀, hrel₀, rfl⟩ := List.mem_map.mp hrel
    rw [(relinked_fst l be rel₀).1]
    exact h.pos rel₀ hrel₀
  le rel hrel := by
    obtain ⟨rel₀, hrel₀, rfl⟩ := List.mem_map.mp hrel
    rw [(relinked_fst l be rel₀).1]
    exact h.le rel₀ hrel₀
  ba_le rel hrel := by
    obtain ⟨rel₀, hrel₀, rfl⟩ := List.mem_map.mp hrel
    show (l.relinked be rel₀).2.1 ≤ l.last_ba_event_id + 1
    unfold relinked
    split
    · exact le_refl _
    · exact (h.ba_le rel₀ hrel₀).trans (Nat.le_succ _)
  kpi_le rel hrel := by
    obtain ⟨rel₀, hrel₀, rfl⟩ := List.mem_map.mp hrel
    rw [(relinked_fst l be rel₀).2]
    exact h.kpi_le rel₀ hrel₀

theorem EntryWf.insertBa (h : l.EntryWf baOf pre) :
    (l.insertBa be).EntryWf baOf (pre ++ [.ba_event be]) where
  seen b t r hr := by
    obtain ⟨ke, hke, hkey⟩ := h.seen b t r (insertBa_entry.mp hr).1
    exact ⟨ke, List.mem_append_left _ hke, hkey⟩
  le b t r hr := h.le b t r (insertBa_entry.mp hr).1
  own b t r hr rel hrel hid k hk hkid := by
    obtain ⟨rel₀, hrel₀, rfl⟩ := List.mem_map.mp hrel
    rw [(relinked_fst l be rel₀).1] at hid
    rw [(relinked_fst l be rel₀).2] at hkid
    exact h.own b t r (insertBa_entry.mp hr).1 rel₀ hrel₀ hid k hk hkid
  all ke hke hnone := by
    rcases List.mem_append.mp hke with hold | hba
    · cases hentry : l.last_inserted_kpi ke.ba_id ke.start_time with
      | none =>
        obtain ⟨e, he, hkey⟩ := h.all ke hold hentry
        exact ⟨e, mem_insertBa.mpr (.inl he), hkey⟩
      | some r =>
        have holder : ke.ba_id = be.ba_id ∧ ke.start_time < be.start_time := by
          by_contra hnot
          rw [insertBa_entry.mpr ⟨hentry, hnot⟩] at hnone
          cases hnone
        exact ⟨_, mem_insertBa.mpr (.inr rfl), holder.1.symm, holder.2⟩
    · cases List.mem_singleton.mp hba

theorem right_insertBa (htl : Timelines baOf (pre ++ .ba_event be :: post)) (hno : ¬ l.hasBa be)
    (h : l.Inv baOf (pre ++ .ba_event be :: post) pre)
    (hk : k ∈ l.kpi_events)
    (hright : Right (pre ++ .ba_event be :: post) pre l k.1 (baOf k.2.kpi_id) k.2.start_time) :
    Right (pre ++ .ba_event be :: post) (pre ++ [.ba_event be]) (l.insertBa be) k.1
      (baOf k.2.kpi_id) k.2.start_time := by
  obtain ⟨r, e, he, hlinks, hb, hfinal⟩ := hright
  have hrel : (r, e.1, k.1) ∈ l.relations :=
    (mem_linksOf.mp (hlinks ▸ List.mem_singleton_self _)).1
  have hlinks' : (l.insertBa be).linksOf k.1 = [l.relinked be (r, e.1, k.1)] := by
    rw [linksOf_insertBa, hlinks]
    rfl
  by_cases hw : l.last_inserted_kpi be.ba_id be.start_time = some r
  · -- the link waited for this event
    obtain ⟨hkb, hkst⟩ := h.entry.own _ _ _ hw _ hrel rfl k hk rfl
    rw [relinked, if_pos hw] at hlinks'
    refine ⟨r, _, mem_insertBa.mpr (.inr rfl), hlinks', hkb.symm, .inl ?_⟩
    show Final _ _ _ be.start_time
    rcases hfinal with hfinal | hwaits
    · -- the event that it was linked to ends when this one starts, at the latest
      exfalso
      have hne : e.2.start_time ≠ be.start_time := fun heq => hno ⟨e, he, hb.trans hkb, heq⟩
      obtain ⟨m, hm, hle, hend⟩ := hfinal
      have hm_start := (announced_key hm).2
      have hsome : (announced be.ba_id be.start_time (pre ++ .ba_event be :: post)).isSome := by
        rw [← List.singleton_append, ← List.append_assoc]
        exact announced_isSome_append (by rw [announced_self]; rfl)
      obtain ⟨m', hm'⟩ := Option.isSome_iff_exists.mp hsome
      rw [hkb] at hm
      have hlt : e.2.start_time < be.start_time := by
        have hle : m.start_time ≤ k.2.start_time := hle
        omega
      obtain ⟨end_time, hclosed, hbefore⟩ := htl.ended hm hm' hlt
      have := hend end_time hclosed
      omega
    · rw [← hkst]
      exact hwaits.final
  · rw [relinked, if_neg hw] at hlinks'
    refine ⟨r, e, mem_insertBa.mpr (.inl he), hlinks', hb, hfinal.imp_right fun hwaits => ?_⟩
    have hkey : ¬ (be.ba_id = baOf k.2.kpi_id ∧ be.start_time = k.2.start_time) := by
      rintro ⟨hkb, hkst⟩
      rw [hkb, hkst] at hw
      exact hw hwaits.entry
    have hnew := (announced_of_ne hkey).trans hwaits.new
    refine ⟨hwaits.final, hnew, insertBa_entry.mpr ⟨hwaits.entry, ?_⟩⟩
    rintro ⟨hkb, hlt⟩
    -- what is announced later starts later
    obtain ⟨m, hm, -⟩ := hwaits.final
    have htl' := htl
    rw [← List.singleton_append, ← List.append_assoc] at htl' hm
    have hlast : latest (baOf k.2.kpi_id) (pre ++ [.ba_event be]) = some be := by
      rw [latest_append_ba, if_pos hkb.symm]
    have := (htl'.ahead_of_new hlast hnew (by rw [hm]; rfl)).1
    omega

theorem wrong_insertBa (hno : ¬ l.hasBa be) (h : l.Inv baOf (pre ++ .ba_event be :: post) pre)
    (hk : k ∈ l.kpi_events)
    (hwrong : Wrong (pre ++ .ba_event be :: post) pre l k.1 (baOf k.2.kpi_id) k.2.start_time) :
    Wrong (pre ++ .ba_event be :: post) (pre ++ [.ba_event be]) (l.insertBa be) k.1
      (baOf k.2.kpi_id) k.2.start_time := by
  intro rel' hrel'
  rw [linksOf_insertBa] at hrel'
  obtain ⟨rel, hmem, rfl⟩ := List.mem_map.mp hrel'
  obtain ⟨hrel, hid⟩ := mem_linksOf.mp hmem
  obtain ⟨hnot, hwaits⟩ := hwrong rel hmem
  by_cases hw : l.last_inserted_kpi be.ba_id be.start_time = some rel.1
  · obtain ⟨hkb, hkst⟩ := h.entry.own _ _ _ hw rel hrel rfl k hk hid.symm
    have hnone : announced be.ba_id be.start_time pre = none := by
      by_contra hsome
      exact hno (h.ba.hasBa_iff.mpr (Option.isSome_iff_ne_none.mpr hsome))
    rw [hkb, hkst] at hwaits ⊢
    have hfinal : ¬ Final (pre ++ .ba_event be :: post) be.ba_id be.start_time be.start_time :=
      fun hfinal => hwaits ⟨hfinal, hnone, hw⟩
    rw [relinked, if_pos hw]
    refine ⟨fun e he heid => ?_, fun hwaits' => hfinal hwaits'.final⟩
    rcases mem_insertBa.mp he with hold | rfl
    · have hle := h.ba.le e hold
      dsimp only at heid
      omega
    · exact hfinal
  · rw [relinked, if_neg hw]
    refine ⟨fun e he heid => ?_, fun hwaits' => hwaits ⟨hwaits'.final, ?_, ?_⟩⟩
    · rcases mem_insertBa.mp he with hold | rfl
      · exact hnot e hold heid
      · have hle := h.rel.ba_le rel hrel
        dsimp only at heid
        omega
    · have hnew := hwaits'.new
      rw [announced_append_ba] at hnew
      split at hnew
      · cases hnew
      · exact hnew
    · exact (insertBa_entry.mp hwaits'.entry).1

theorem Inv.insertBa (htl : Timelines baOf (pre ++ .ba_event be :: post)) (hno : ¬ l.hasBa be)
    (h : l.Inv baOf (pre ++ .ba_event be :: post) pre) :
    (l.insertBa be).Inv baOf (pre ++ .ba_event be :: post) (pre ++ [.ba_event be]) where
  ba := h.ba.insertBa hno
  kpi := h.kpi.of_same rfl rfl
  rel := h.rel.insertBa
  entry := h.entry.insertBa
  right k hk htimed := right_insertBa htl hno h hk (h.right k hk htimed)
  wrong k hk htimed := wrong_insertBa hno h hk (h.wrong k hk htimed)

/-! ### Every run -/

theorem inv_new (baOf : ℕ → ℕ) (es : List Event) :
    (Tables.new.links fun _ _ => none).Inv baOf es [] where
  ba := ⟨List.nodup_nil, List.forall_mem_nil _, List.forall_mem_nil _,
    fun _ _ _ h => absurd h.symm (Option.some_ne_none _), List.forall_mem_nil _⟩
  kpi := ⟨List.forall_mem_nil _, List.forall_mem_nil _, List.forall_mem_nil _,
    fun _ h => absurd h List.not_mem_nil⟩
  rel := ⟨List.forall_mem_nil _, List.forall_mem_nil _, List.forall_mem_nil _,
    List.forall_mem_nil _, List.forall_mem_nil _⟩
  entry := ⟨fun _ _ _ h => absurd h.symm (Option.some_ne_none _),
    fun _ _ _ h => absurd h.symm (Option.some_ne_none _),
    fun _ _ _ _ => List.forall_mem_nil _, fun _ h => absurd h List.not_mem_nil⟩
  right := List.forall_mem_nil _
  wrong := List.forall_mem_nil _

theorem Inv.store {e : Event} (htl : Timelines baOf (pre ++ e :: post))
    (h : l.Inv baOf (pre ++ e :: post) pre) :
    (l.store e).Inv baOf (pre ++ e :: post) (pre ++ [e]) := by
  rcases htl.event e (List.mem_append_right _ List.mem_cons_self) with ⟨ke, rfl⟩ | ⟨be, rfl⟩
  · show (l.storeKpi ke).Inv baOf _ _
    unfold storeKpi
    split
    · rename_i hhas
      exact h.updateKpi htl.of_append_cons hhas
    · rename_i hno
      exact h.insertKpi htl hno
  · show (l.storeBa be).Inv baOf _ _
    unfold storeBa
    split
    · rename_i hhas
      exact h.updateBa hhas
    · rename_i hno
      exact h.insertBa htl hno

end LinkTables

end CentreonBroker.Bam
