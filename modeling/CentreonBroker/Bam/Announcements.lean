import CentreonBroker.Bam.ReportingStream
import Mathlib.Data.List.Basic

/-!
# The timelines of the BAs

An event of a BA is announced when it starts and when it ends, the events of a BA one after the
other. What is announced of a start last is what the tables hold. Whatever comes next, an event
that was followed by another is ended by its start, and no event starts before one that was
announced.
-/

namespace CentreonBroker.Bam

namespace Event

def baEvent? : Event → Option BaEvent
  | .ba_event be => some be
  | _ => none

def kpiEvent? : Event → Option KpiEvent
  | .kpi_event ke => some ke
  | _ => none

end Event

/-- What is announced of a BA last. -/
def latest (ba_id : ℕ) (es : List Event) : Option BaEvent :=
  ((es.filterMap Event.baEvent?).filter fun be => be.ba_id = ba_id).getLast?

/-- What is announced last of the event of a BA that starts at a time. -/
def announced (ba_id : ℕ) (start_time : ℤ) (es : List Event) : Option BaEvent :=
  ((es.filterMap Event.baEvent?).filter fun be =>
    be.ba_id = ba_id ∧ be.start_time = start_time).getLast?

/-- An announcement comes right after another of the same BA: it is about the same event, that it
may end, or about the next one. -/
def Follows (be be' : BaEvent) : Prop :=
  be'.start_time = be.start_time ∧
      (nullable be.end_time = none ∨ nullable be'.end_time = nullable be.end_time) ∨
    be.start_time < be'.start_time ∧ nullable be.end_time = some be'.start_time

/-- Only events of KPIs and of BAs come, each KPI is of one BA, and the events of each BA are
contiguous. -/
structure Timelines (baOf : ℕ → ℕ) (es : List Event) : Prop where
  event : ∀ e ∈ es, (∃ ke, e = .kpi_event ke) ∨ ∃ be, e = .ba_event be
  kpi : ∀ ke, .kpi_event ke ∈ es → ke.ba_id = baOf ke.kpi_id
  ba : ∀ pre be post, es = pre ++ .ba_event be :: post →
    ∀ last, latest be.ba_id pre = some last → Follows last be

variable {baOf : ℕ → ℕ} {es pre post : List Event} {be last m m' : BaEvent} {b : ℕ} {st st' : ℤ}

theorem Timelines.of_append (h : Timelines baOf (pre ++ post)) : Timelines baOf pre where
  event e he := h.event e (List.mem_append_left _ he)
  kpi ke hke := h.kpi ke (List.mem_append_left _ hke)
  ba pre' be post' heq last hlast := by
    refine h.ba pre' be (post' ++ post) ?_ last hlast
    rw [heq, List.append_assoc, List.cons_append]

theorem Timelines.of_append_cons {e : Event} (h : Timelines baOf (pre ++ e :: post)) :
    Timelines baOf (pre ++ [e]) := by
  rw [← List.singleton_append, ← List.append_assoc] at h
  exact h.of_append

theorem Timelines.follows (h : Timelines baOf (pre ++ [.ba_event be]))
    (hlast : latest be.ba_id pre = some last) : Follows last be :=
  h.ba pre be [] rfl last hlast

theorem timelines_nil (baOf : ℕ → ℕ) : Timelines baOf [] where
  event _ he := by cases he
  kpi _ hke := by cases hke
  ba pre be post heq := by
    have hlength := congrArg List.length heq
    rw [List.length_append, List.length_cons, List.length_nil] at hlength
    omega

theorem Timelines.concat_kpi {ke : KpiEvent} (h : Timelines baOf es)
    (hba : ke.ba_id = baOf ke.kpi_id) : Timelines baOf (es ++ [.kpi_event ke]) where
  event e he := by
    rcases List.mem_append.mp he with hold | hnew
    · exact h.event e hold
    · exact .inl ⟨ke, List.mem_singleton.mp hnew⟩
  kpi ke' hke' := by
    rcases List.mem_append.mp hke' with hold | hnew
    · exact h.kpi ke' hold
    · cases List.mem_singleton.mp hnew
      exact hba
  ba pre be post heq := by
    rcases List.eq_nil_or_concat post with rfl | ⟨post, e, rfl⟩
    · cases (List.append_inj' heq rfl).2
    · rw [List.concat_eq_append, ← List.cons_append, ← List.append_assoc] at heq
      exact h.ba pre be post (List.append_inj' heq rfl).1

theorem Timelines.concat_ba {be : BaEvent} (h : Timelines baOf es)
    (hfollows : ∀ last, latest be.ba_id es = some last → Follows last be) :
    Timelines baOf (es ++ [.ba_event be]) where
  event e he := by
    rcases List.mem_append.mp he with hold | hnew
    · exact h.event e hold
    · exact .inr ⟨be, List.mem_singleton.mp hnew⟩
  kpi ke hke := by
    rcases List.mem_append.mp hke with hold | hnew
    · exact h.kpi ke hold
    · cases List.mem_singleton.mp hnew
  ba pre be' post heq := by
    rcases List.eq_nil_or_concat post with rfl | ⟨post, e, rfl⟩
    · obtain ⟨rfl, hbe⟩ := List.append_inj' heq rfl
      cases hbe
      exact hfollows
    · rw [List.concat_eq_append, ← List.cons_append, ← List.append_assoc] at heq
      exact h.ba pre be' post (List.append_inj' heq rfl).1

/-! ## One more announcement -/

@[simp] theorem latest_append_kpi (ke : KpiEvent) :
    latest b (pre ++ [.kpi_event ke]) = latest b pre := by
  unfold latest
  rw [List.filterMap_append, show [Event.kpi_event ke].filterMap Event.baEvent? = [] from rfl,
    List.append_nil]

@[simp] theorem announced_append_kpi (ke : KpiEvent) :
    announced b st (pre ++ [.kpi_event ke]) = announced b st pre := by
  unfold announced
  rw [List.filterMap_append, show [Event.kpi_event ke].filterMap Event.baEvent? = [] from rfl,
    List.append_nil]

theorem latest_append_ba :
    latest b (pre ++ [.ba_event be]) = if be.ba_id = b then some be else latest b pre := by
  unfold latest
  rw [List.filterMap_append, show [Event.ba_event be].filterMap Event.baEvent? = [be] from rfl,
    List.filter_append]
  split <;> simp_all

theorem announced_append_ba :
    announced b st (pre ++ [.ba_event be]) =
      if be.ba_id = b ∧ be.start_time = st then some be else announced b st pre := by
  unfold announced
  rw [List.filterMap_append, show [Event.ba_event be].filterMap Event.baEvent? = [be] from rfl,
    List.filter_append]
  split <;> simp_all

theorem announced_self : announced be.ba_id be.start_time (pre ++ [.ba_event be]) = some be := by
  rw [announced_append_ba, if_pos ⟨rfl, rfl⟩]

theorem announced_of_ne (hne : ¬ (be.ba_id = b ∧ be.start_time = st)) :
    announced b st (pre ++ [.ba_event be]) = announced b st pre := by
  rw [announced_append_ba, if_neg hne]

theorem announced_key (h : announced b st es = some m) : m.ba_id = b ∧ m.start_time = st := by
  have hmem := List.mem_of_getLast? h
  simpa using (List.mem_filter.mp hmem).2

/-- What is announced stays announced. -/
theorem announced_isSome_append (h : (announced b st pre).isSome) :
    (announced b st (pre ++ post)).isSome := by
  unfold announced at h ⊢
  rw [List.filterMap_append, List.filter_append, List.getLast?_append]
  cases hpost : ((post.filterMap Event.baEvent?).filter fun be =>
      be.ba_id = b ∧ be.start_time = st).getLast? with
  | none => exact h
  | some be => rfl

/-! ## The order of the announcements -/

/-- An announcement comes after another of the same BA, maybe not right after. -/
structure Ahead (be be' : BaEvent) : Prop where
  start_le : be.start_time ≤ be'.start_time
  ended : be.start_time < be'.start_time →
    ∀ end_time, nullable be.end_time = some end_time → end_time ≤ be'.start_time
  same : be.start_time = be'.start_time →
    nullable be.end_time = none ∨ nullable be'.end_time = nullable be.end_time

theorem Ahead.refl (be : BaEvent) : Ahead be be :=
  ⟨le_refl _, fun h => absurd h (lt_irrefl _), fun _ => .inr rfl⟩

theorem Ahead.follows {be be' be'' : BaEvent} (h : Ahead be be') (hnext : Follows be' be'') :
    Ahead be be'' := by
  rcases hnext with ⟨hstart, hend⟩ | ⟨hlt, hend⟩
  · refine ⟨hstart ▸ h.start_le, fun hlt => ?_, fun heq => ?_⟩
    · rw [hstart] at hlt ⊢
      exact h.ended hlt
    rcases h.same (heq.trans hstart) with hopen | hsame
    · exact .inl hopen
    · rcases hend with hopen | hend
      · exact .inl (hsame.symm.trans hopen)
      · exact .inr (hend.trans hsame)
  · refine ⟨h.start_le.trans hlt.le, fun _ end_time hclosed => ?_, fun heq => ?_⟩
    · rcases h.start_le.lt_or_eq with hbefore | heq
      · exact (h.ended hbefore end_time hclosed).trans hlt.le
      · rcases h.same heq with hopen | hsame
        · rw [hopen] at hclosed
          cases hclosed
        · rw [← hsame, hend] at hclosed
          cases hclosed
          exact le_refl _
    · exact absurd h.start_le (not_le.mpr (heq ▸ hlt))

theorem Timelines.announced_latest (h : Timelines baOf es) (hlast : latest b es = some last) :
    last.ba_id = b ∧ announced b last.start_time es = some last := by
  induction es using List.reverseRecOn with
  | nil => cases hlast
  | append_singleton es e ih =>
    rcases h.event e (List.mem_append_right _ (List.mem_singleton_self e)) with
      ⟨ke, rfl⟩ | ⟨be, rfl⟩
    · simp only [latest_append_kpi, announced_append_kpi] at hlast ⊢
      exact ih h.of_append hlast
    · rw [latest_append_ba] at hlast
      split at hlast
      · rename_i hb
        cases hlast
        exact ⟨hb, hb ▸ announced_self⟩
      · rename_i hb
        rw [announced_of_ne (fun hkey => hb hkey.1)]
        exact ih h.of_append hlast

/-- What is announced last of an event was announced when its BA was announced last, or before. -/
theorem Timelines.latest_of_announced (h : Timelines baOf es) (hm : announced b st es = some m) :
    ∃ last, latest b es = some last ∧ st ≤ last.start_time ∧
      announced b last.start_time es = some last := by
  induction es using List.reverseRecOn with
  | nil => cases hm
  | append_singleton es e ih =>
    rcases h.event e (List.mem_append_right _ (List.mem_singleton_self e)) with
      ⟨ke, rfl⟩ | ⟨be, rfl⟩
    · simp only [latest_append_kpi, announced_append_kpi] at hm ⊢
      exact ih h.of_append hm
    · by_cases hb : be.ba_id = b
      · subst hb
        refine ⟨be, by rw [latest_append_ba, if_pos rfl], ?_, announced_self⟩
        by_cases hst : be.start_time = st
        · exact hst.ge
        · rw [announced_of_ne (fun hkey => hst hkey.2)] at hm
          obtain ⟨last, hlast, hle, -⟩ := ih h.of_append hm
          rcases h.follows hlast with ⟨hstart, -⟩ | ⟨hlt, -⟩
          · exact hle.trans hstart.ge
          · exact hle.trans hlt.le
      · rw [announced_of_ne (fun hkey => hb hkey.1)] at hm
        obtain ⟨last, hlast, hle, hself⟩ := ih h.of_append hm
        refine ⟨last, by rw [latest_append_ba, if_neg hb]; exact hlast, hle, ?_⟩
        rw [announced_of_ne (fun hkey => hb hkey.1)]
        exact hself

/-- An event that was followed by another is ended, no later than the other starts. -/
theorem Timelines.ended (h : Timelines baOf es) (hm : announced b st es = some m)
    (hm' : announced b st' es = some m') (hlt : st < st') :
    ∃ end_time, nullable m.end_time = some end_time ∧ end_time ≤ st' := by
  induction es using List.reverseRecOn generalizing m m' st' with
  | nil => cases hm
  | append_singleton es e ih =>
    rcases h.event e (List.mem_append_right _ (List.mem_singleton_self e)) with
      ⟨ke, rfl⟩ | ⟨be, rfl⟩
    · rw [announced_append_kpi] at hm hm'
      exact ih h.of_append hm hm' hlt
    · by_cases hb : be.ba_id = b
      · subst hb
        by_cases hst : be.start_time = st
        · -- an event before the latest one is not announced again
          subst hst
          rw [announced_of_ne (fun hkey => hlt.ne hkey.2)] at hm'
          obtain ⟨last, hlast, hle, -⟩ := h.of_append.latest_of_announced hm'
          rcases h.follows hlast with ⟨hstart, -⟩ | ⟨hlt', -⟩
          · exact absurd (hlt.trans_le hle) (hstart ▸ lt_irrefl _)
          · exact absurd (hlt.trans_le hle) hlt'.asymm
        · rw [announced_of_ne (fun hkey => hst hkey.2)] at hm
          by_cases hst' : be.start_time = st'
          · subst hst'
            obtain ⟨last, hlast, hle, hself⟩ := h.of_append.latest_of_announced hm
            rcases hle.lt_or_eq with hbefore | heq
            · obtain ⟨end_time, hend, hend_le⟩ := ih h.of_append hm hself hbefore
              refine ⟨end_time, hend, hend_le.trans ?_⟩
              rcases h.follows hlast with ⟨hstart, -⟩ | ⟨hlt', -⟩
              · exact hstart.ge
              · exact hlt'.le
            · rw [← heq, hm] at hself
              cases hself
              rcases h.follows hlast with ⟨hstart, -⟩ | ⟨-, hend⟩
              · exact absurd (hstart.trans heq.symm) hst
              · exact ⟨_, hend, le_refl _⟩
          · rw [announced_of_ne (fun hkey => hst' hkey.2)] at hm'
            exact ih h.of_append hm hm' hlt
      · rw [announced_of_ne (fun hkey => hb hkey.1)] at hm hm'
        exact ih h.of_append hm hm' hlt

/-- What comes later of a BA is ahead of its latest announcement. -/
theorem Timelines.ahead (h : Timelines baOf (pre ++ post)) (hlast : latest b pre = some last) :
    ∃ last', latest b (pre ++ post) = some last' ∧ Ahead last last' := by
  induction post using List.reverseRecOn with
  | nil => exact ⟨last, by rw [List.append_nil]; exact hlast, .refl last⟩
  | append_singleton post e ih =>
    rw [← List.append_assoc] at h ⊢
    obtain ⟨last', hlast', hahead⟩ := ih h.of_append
    rcases h.event e (List.mem_append_right _ (List.mem_singleton_self e)) with
      ⟨ke, rfl⟩ | ⟨be, rfl⟩
    · exact ⟨last', by rw [latest_append_kpi]; exact hlast', hahead⟩
    · by_cases hb : be.ba_id = b
      · subst hb
        exact ⟨be, by rw [latest_append_ba, if_pos rfl], hahead.follows (h.follows hlast')⟩
      · exact ⟨last', by rw [latest_append_ba, if_neg hb]; exact hlast', hahead⟩

/-- An event that is announced from some point on is ahead of what was announced before. -/
theorem Timelines.ahead_of_new (h : Timelines baOf (pre ++ post)) (hlast : latest b pre = some last)
    (hnone : announced b st pre = none) (hm : (announced b st (pre ++ post)).isSome) :
    last.start_time < st ∧ ∀ end_time, nullable last.end_time = some end_time → end_time ≤ st := by
  induction post using List.reverseRecOn with
  | nil =>
    rw [List.append_nil, hnone] at hm
    cases hm
  | append_singleton post e ih =>
    rw [← List.append_assoc] at h hm
    rcases h.event e (List.mem_append_right _ (List.mem_singleton_self e)) with
      ⟨ke, rfl⟩ | ⟨be, rfl⟩
    · rw [announced_append_kpi] at hm
      exact ih h.of_append hm
    · by_cases hkey : be.ba_id = b ∧ be.start_time = st
      · obtain ⟨rfl, rfl⟩ := hkey
        obtain ⟨last', hlast', hahead⟩ := h.of_append.ahead hlast
        have hahead := hahead.follows (h.follows hlast')
        have hself := (h.of_append.of_append.announced_latest hlast).2
        have hne : last.start_time ≠ be.start_time := by
          intro heq
          rw [← heq, hself] at hnone
          cases hnone
        have hlt := lt_of_le_of_ne hahead.start_le hne
        exact ⟨hlt, hahead.ended hlt⟩
      · rw [announced_of_ne hkey] at hm
        exact ih h.of_append hm

/-- The end of an event that is announced does not change. -/
theorem Timelines.same_end (h : Timelines baOf (pre ++ post)) (hm : announced b st pre = some m)
    (hm' : announced b st (pre ++ post) = some m') :
    nullable m.end_time = none ∨ nullable m'.end_time = nullable m.end_time := by
  induction post using List.reverseRecOn generalizing m' with
  | nil =>
    rw [List.append_nil, hm] at hm'
    cases hm'
    exact .inr rfl
  | append_singleton post e ih =>
    rw [← List.append_assoc] at h hm'
    rcases h.event e (List.mem_append_right _ (List.mem_singleton_self e)) with
      ⟨ke, rfl⟩ | ⟨be, rfl⟩
    · rw [announced_append_kpi] at hm'
      exact ih h.of_append hm'
    · by_cases hkey : be.ba_id = b ∧ be.start_time = st
      · obtain ⟨rfl, rfl⟩ := hkey
        rw [announced_self] at hm'
        cases hm'
        have hstays : ∃ m₁, announced m'.ba_id m'.start_time (pre ++ post) = some m₁ :=
          Option.isSome_iff_exists.mp (announced_isSome_append (by rw [hm]; rfl))
        obtain ⟨m₁, hm₁⟩ := hstays
        obtain ⟨last, hlast, hle, hself⟩ := h.of_append.latest_of_announced hm₁
        rcases h.follows hlast with ⟨hstart, hend⟩ | ⟨hlt, -⟩
        · rw [← hstart] at hself
          rcases ih h.of_append hself with hopen | hsame
          · exact .inl hopen
          · rw [hsame] at hend
            exact hend
        · exact absurd hle (not_le.mpr hlt)
      · rw [announced_of_ne hkey] at hm'
        exact ih h.of_append hm'

end CentreonBroker.Bam
