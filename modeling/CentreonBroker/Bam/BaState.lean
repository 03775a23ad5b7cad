import CentreonBroker.Bam.BaTotals

/-!
# The state a BA reports

What a BA should report is a function of the KPIs that count: the best or the worst of their
states, or how many are critical. What it does report is compared with that, for every source
of the state and every run. `pending` compares with OK only when the worst state is looked for, and
with CRITICAL only when the best one is: where it meets others, no state is the last, and which one
is reported depends on the order in which the impacts were applied.

A BA that takes the best state starts from OK, which nothing is better than, and starts over
from CRITICAL each time it takes an impact off. A ratio in percent is of all the attached
KPIs, those that are ignored too.
-/

namespace CentreonBroker.Bam

open Ba ImpactInfo Finset

/-! ## What should be reported -/

section Ranks

variable {K : Type}

/-- The state of some KPIs that comes last: one of theirs, and each other one comes before it. -/
structure Last (before : State → State → Bool) (s : Finset K) (state : K → State) (st : State) :
    Prop where
  mem : ∃ k ∈ s, state k = st
  before : ∀ k ∈ s, state k = st ∨ before (state k) st

/-- Any two of the KPIs are in states that compare. -/
def Ranked (before : State → State → Bool) (s : Finset K) (state : K → State) : Prop :=
  ∀ k ∈ s, ∀ k' ∈ s,
    state k = state k' ∨ before (state k) (state k') ∨ before (state k') (state k)

instance (before : State → State → Bool) (s : Finset K) (state : K → State) :
    Decidable (Ranked before s state) :=
  inferInstanceAs (Decidable (∀ k ∈ s, ∀ k' ∈ s, _ ∨ _ ∨ _))

/-- What the two comparisons have in common. The states before one are in a row. -/
structure Ranks (before : State → State → Bool) : Prop where
  asymm : ∀ a b, before a b → ¬before b a
  trans : ∀ a b c, before a b → before b c → before a c
  row : ∀ a b c, before a c → before b c → a = b ∨ before a b ∨ before b a

instance : Fintype State := ⟨{.ok, .warning, .critical, .unknown, .pending}, by rintro ⟨⟩ <;> decide⟩

theorem ranks_worse : Ranks is_state_worse := ⟨by decide, by decide, by decide⟩

theorem ranks_better : Ranks is_state_better := ⟨by decide, by decide, by decide⟩

variable {before : State → State → Bool} {s : Finset K} {state : K → State}

theorem Last.unique (hr : Ranks before) {st st' : State} (h : Last before s state st)
    (h' : Last before s state st') : st = st' := by
  obtain ⟨k, hk, rfl⟩ := h.mem
  obtain ⟨k', hk', rfl⟩ := h'.mem
  rcases h'.before k hk with heq | hlt
  · exact heq
  rcases h.before k' hk' with heq | hlt'
  · exact heq.symm
  · exact absurd hlt' (hr.asymm _ _ hlt)

/-- States that do not compare have no last one. -/
theorem Last.ranked (hr : Ranks before) {st : State} (h : Last before s state st) :
    Ranked before s state := by
  intro k hk k' hk'
  rcases h.before k hk with heq | hlt
  · rcases h.before k' hk' with heq' | hlt'
    · exact .inl (heq.trans heq'.symm)
    · exact .inr (.inr (heq ▸ hlt'))
  · rcases h.before k' hk' with heq' | hlt'
    · exact .inr (.inl (heq' ▸ hlt))
    · exact hr.row _ _ _ hlt hlt'

theorem Last.congr {state' : K → State} {st : State} (hs : ∀ k ∈ s, state k = state' k)
    (h : Last before s state st) : Last before s state' st := by
  obtain ⟨k, hk, hst⟩ := h.mem
  exact ⟨⟨k, hk, hs k hk ▸ hst⟩, fun k' hk' => hs k' hk' ▸ h.before k' hk'⟩

end Ranks

/-- What the state of some KPIs is, by the source of the state of their BA: with `best` and `worst`,
the last one in the order that the code compares states by. -/
def StateOf {K : Type} [DecidableEq K] (fl : ℚ → ℚ) (c : Config)
    (side : ImpactInfo → ImpactValues) (s : Finset K) (report : K → ImpactInfo) (st : State) : Prop :=
  let criticals := (s.filter fun k => (side (report k)).state = .critical).card
  match c.state_source with
  | .impact =>
    st = if !c.valid then .unknown
      else if 100 - ∑ k ∈ s, (side (report k)).nominal ≤ c.level_critical then .critical
      else if 100 - ∑ k ∈ s, (side (report k)).nominal ≤ c.level_warning then .warning
      else .ok
  | .best =>
    if s = ∅ then st = .ok else Last is_state_better s (fun k => (side (report k)).state) st
  | .worst =>
    if s = ∅ then st = .ok else Last is_state_worse s (fun k => (side (report k)).state) st
  | .ratio_number => st = update_state (some criticals) (fl c.level_critical) (fl c.level_warning)
  | .ratio_percent =>
    st = update_state (percent fl criticals s.card) (fl c.level_critical) (fl c.level_warning)
  | .other => st = .unknown

/-- There is one such state at most, and it is about the KPIs that are given and nothing else. -/
theorem StateOf.unique {K : Type} [DecidableEq K] {fl : ℚ → ℚ} {c : Config}
    {side : ImpactInfo → ImpactValues} {s : Finset K} {report report' : K → ImpactInfo}
    (hreport : ∀ k ∈ s, report k = report' k) {st st' : State}
    (h : StateOf fl c side s report st) (h' : StateOf fl c side s report' st') : st = st' := by
  have hsum : ∑ k ∈ s, (side (report k)).nominal = ∑ k ∈ s, (side (report' k)).nominal :=
    sum_congr rfl fun k hk => by rw [hreport k hk]
  have hcount : (s.filter fun k => (side (report k)).state = .critical) =
      s.filter fun k => (side (report' k)).state = .critical :=
    filter_congr fun k hk => by rw [hreport k hk]
  have hstates : ∀ k ∈ s, (side (report k)).state = (side (report' k)).state :=
    fun k hk => by rw [hreport k hk]
  unfold StateOf at h h'
  rw [hsum, hcount] at h
  cases hsource : c.state_source with
  | impact | ratio_number | ratio_percent | other =>
    simp only [hsource] at h h'
    exact h.trans h'.symm
  | best | worst =>
    simp only [hsource] at h h'
    by_cases hs : s = ∅
    · rw [if_pos hs] at h h'
      exact h.trans h'.symm
    · rw [if_neg hs] at h h'
      exact (h.congr hstates).unique (by first | exact ranks_better | exact ranks_worse) h'

/-! ## What the totals hold -/

namespace Totals

variable {K : Type} [DecidableEq K] {c : Config} (side : ImpactInfo → ImpactValues)
  {report : K → ImpactInfo}

/-- Starting over forgets the states that were applied. -/
theorem reset_applyState (s : State) (t : Totals) : (t.applyState c s).reset c = t.reset c := by
  unfold applyState reset
  cases c.state_source <;> rfl

theorem reset_verdict {t t' : Totals} (h : t.verdict = t'.verdict) :
    (t.reset c).verdict = (t'.reset c).verdict := by
  obtain ⟨hstate, hnum⟩ := Prod.mk.inj h
  unfold reset verdict
  cases c.state_source <;> simp [hstate, hnum]

omit [DecidableEq K] in
theorem reset_total (l : List (Sigma fun _ : K => ImpactInfo)) (t : Totals) :
    ((total side c l t).reset c).verdict = (t.reset c).verdict := by
  induction l with
  | nil => rfl
  | cons e l ih =>
    show (((total side c l t).apply c e.2.in_downtime (side e.2)).reset c).verdict = _
    rw [← ih]
    by_cases hd : ignored c e.2.in_downtime
    · exact reset_verdict (by rw [apply_verdict, if_pos hd])
    · have hv : ((total side c l t).apply c e.2.in_downtime (side e.2)).verdict =
          ((total side c l t).applyState c (side e.2).state).verdict := by
        rw [apply_verdict, if_neg hd]
      rw [reset_verdict hv, reset_applyState]

/-- The KPIs of a list that count. -/
def counted (c : Config) (report : K → ImpactInfo) (l : List (Sigma fun _ : K => ImpactInfo)) :
    Finset K :=
  l.keys.toFinset.filter fun k => !ignored c (report k).in_downtime

variable {l : List (Sigma fun _ : K => ImpactInfo)}

theorem counted_cons {e : Sigma fun _ : K => ImpactInfo}
    (h : report e.1 = e.2) :
    counted c report (e :: l) =
      if ignored c e.2.in_downtime then counted c report l else insert e.1 (counted c report l) := by
  unfold counted
  rw [List.keys_cons, List.toFinset_cons, filter_insert, h]
  by_cases hd : ignored c e.2.in_downtime <;> simp [hd]

/-- What the states come to, as long as they compare: the last of them, or where they start from. -/
theorem total_last {before : State → State → Bool} (hr : Ranks before)
    (happly : ∀ s t, (applyState c s t).computed_state =
      if before t.computed_state s then s else t.computed_state)
    {t : Totals} (hfirst : ∀ s, s = t.computed_state ∨ before t.computed_state s)
    (h : ∀ e ∈ l, report e.1 = e.2)
    (hranked : Ranked before (counted c report l) fun k => (side (report k)).state) :
    ((total side c l t).computed_state = t.computed_state ∨
      ∃ k ∈ counted c report l, (side (report k)).state = (total side c l t).computed_state) ∧
    ∀ k ∈ counted c report l, (side (report k)).state = (total side c l t).computed_state ∨
      before (side (report k)).state (total side c l t).computed_state := by
  induction l with
  | nil => exact ⟨.inl rfl, fun k hk => by simp [counted] at hk⟩
  | cons e l ih =>
    have hfst : (total side c (e :: l) t).computed_state = _ :=
      congrArg Prod.fst (apply_verdict (c := c) e.2.in_downtime (side e.2) (total side c l t))
    have he := h e List.mem_cons_self
    have hcons := counted_cons (c := c) (l := l) he
    by_cases hd : ignored c e.2.in_downtime
    · rw [if_pos hd] at hfst hcons
      rw [hcons] at hranked ⊢
      rw [hfst]
      exact ih (fun e' he' => h e' (List.mem_cons_of_mem _ he')) hranked
    rw [if_neg hd] at hfst hcons
    rw [hcons] at hranked ⊢
    obtain ⟨hmem, hall⟩ := ih (fun e' he' => h e' (List.mem_cons_of_mem _ he'))
      fun k hk k' hk' => hranked k (mem_insert_of_mem hk) k' (mem_insert_of_mem hk')
    rw [hfst.trans (happly _ _)]
    have hse : (side (report e.1)).state = (side e.2).state := by rw [he]
    split
    · rename_i hlater
      refine ⟨.inr ⟨e.1, mem_insert_self _ _, hse⟩, fun k hk => ?_⟩
      rcases mem_insert.mp hk with rfl | hk
      · exact .inl hse
      · rcases hall k hk with heq | hlt
        · exact .inr (heq ▸ hlater)
        · exact .inr (hr.trans _ _ _ hlt hlater)
    · rename_i hnot
      refine ⟨hmem.imp_right fun ⟨k, hk, hst⟩ => ⟨k, mem_insert_of_mem hk, hst⟩,
        fun k hk => ?_⟩
      rcases mem_insert.mp hk with rfl | hk
      · rw [hse]
        rcases hmem with heq | ⟨k', hk', heq⟩
        · rw [heq] at hnot ⊢
          exact .inl ((hfirst _).resolve_right hnot)
        · have hcmp := hranked e.1 (mem_insert_self _ _) k' (mem_insert_of_mem hk')
          simp only [hse, heq] at hcmp
          exact hcmp.imp_right fun hor => hor.resolve_right hnot
      · exact hall k hk

omit [DecidableEq K] in
/-- Nothing comes behind where they start from. -/
theorem total_stays {before : State → State → Bool}
    (happly : ∀ s t, (applyState c s t).computed_state =
      if before t.computed_state s then s else t.computed_state)
    {t : Totals} (hlast : ∀ s, before t.computed_state s = false)
    (l : List (Sigma fun _ : K => ImpactInfo)) :
    (total side c l t).computed_state = t.computed_state := by
  induction l with
  | nil => rfl
  | cons e l ih =>
    have hfst : (total side c (e :: l) t).computed_state = _ :=
      congrArg Prod.fst (apply_verdict (c := c) e.2.in_downtime (side e.2) (total side c l t))
    refine hfst.trans ?_
    split
    · exact ih
    · refine (happly _ _).trans ?_
      rw [ih, if_neg (by rw [hlast]; decide)]

theorem total_ratio (hsource : c.state_source = .ratio_number ∨ c.state_source = .ratio_percent)
    (t : Totals) (hnodup : l.NodupKeys)
    (h : ∀ e ∈ l, report e.1 = e.2) :
    (total side c l t).num_critical_childs = t.num_critical_childs +
      ((counted c report l).filter fun k => (side (report k)).state = .critical).card := by
  induction l with
  | nil => simp [total, counted]
  | cons e l ih =>
    have hsnd := congrArg Prod.snd (apply_verdict (c := c) e.2.in_downtime (side e.2) (total side c l t))
    obtain ⟨hnot, hnodup⟩ := List.nodupKeys_cons.mp hnodup
    have ih := ih hnodup fun e' he' => h e' (List.mem_cons_of_mem _ he')
    rw [counted_cons (h e List.mem_cons_self)]
    by_cases hd : ignored c e.2.in_downtime
    · rw [if_pos hd] at hsnd ⊢
      exact hsnd.trans ih
    · rw [if_neg hd] at hsnd ⊢
      have hfresh : e.1 ∉ (counted c report l).filter fun k => (side (report k)).state = .critical := by
        intro hin
        exact hnot (List.mem_toFinset.mp (mem_filter.mp (mem_filter.mp hin).1).1)
      have happly : ((total side c l t).applyState c (side e.2).state).num_critical_childs =
          if (side e.2).state = .critical then (total side c l t).num_critical_childs + 1
          else (total side c l t).num_critical_childs := by
        rcases hsource with hs | hs <;> simp only [applyState, hs]
      have hsum := hsnd.trans happly
      rw [filter_insert, h e List.mem_cons_self]
      by_cases hcrit : (side e.2).state = .critical
      · rw [if_pos hcrit] at hsum ⊢
        rw [card_insert_of_notMem hfresh, ← Nat.add_assoc, ← ih]
        exact hsum
      · rw [if_neg hcrit] at hsum ⊢
        exact hsum.trans ih

end Totals

/-! ## Runs -/

namespace World

variable {K : Type} [DecidableEq K]

/-- Whether some call of a run takes an impact off. -/
def takenOff (w : World K) : List (BaOp K) → Bool
  | [] => false
  | op :: ops => takesOff w op || takenOff (w.step op) ops

/-- Where the totals start from. -/
def base (c : Config) (off : Bool) : Totals := if off then Totals.init.reset c else .init

/-- Totals that hold the states and the count of some entries, from where they start. -/
def Brought (side : ImpactInfo → ImpactValues) (c : Config) (off : Bool)
    (l : List (Sigma fun _ : K => ImpactInfo)) (t : Totals) : Prop :=
  t.verdict = (Totals.total side c l (base c off)).verdict

/-- The states and the counts are those of the entries. -/
structure Judged (off : Bool) (w : World K) : Prop where
  hard : Brought hard_impact w.ba.config off w.ba.impacts.entries w.ba.hard
  soft : Brought soft_impact w.ba.config off w.ba.impacts.entries w.ba.soft

omit [DecidableEq K] in
theorem Judged.start (c : Config) (report : K → ImpactInfo) : Judged false (start c report) :=
  ⟨rfl, rfl⟩

section Brought

variable {side : ImpactInfo → ImpactValues} {c : Config} {off : Bool}
  {l : List (Sigma fun _ : K => ImpactInfo)} {t : Totals}

omit [DecidableEq K] in
theorem Brought.apply (h : Brought side c off l t) (e : Sigma fun _ : K => ImpactInfo) :
    Brought side c off (e :: l) (t.apply c e.2.in_downtime (side e.2)) :=
  Totals.verdict_apply h

omit [DecidableEq K] in
/-- Starting over, whatever was applied before. -/
theorem Brought.reset (h : Brought side c off l t) :
    (t.reset c).verdict = (base c true).verdict := by
  rw [Totals.reset_verdict h, Totals.reset_total]
  cases off with
  | false => rfl
  | true =>
    show ((Totals.init.reset c).reset c).verdict = (Totals.init.reset c).verdict
    unfold Totals.reset
    cases c.state_source <;> rfl

end Brought

/-- What taking an impact off leaves. -/
theorem Judged.unapply {off : Bool} {w : World K} (hsource : w.ba.config.state_source ≠ .impact)
    (h : Judged off w) (k : K) (i : ImpactInfo) :
    Brought hard_impact w.ba.config true (w.ba.impacts.erase k).entries
        (unapply_impact k i w.ba).hard ∧
      Brought soft_impact w.ba.config true (w.ba.impacts.erase k).entries
        (unapply_impact k i w.ba).soft := by
  rw [unapply_impact, if_neg hsource, Entries.filter_ne_eq_erase, applyAll_eq]
  exact ⟨Totals.total_verdict _ _ h.hard.reset, Totals.total_verdict _ _ h.soft.reset⟩

theorem Judged.step {off : Bool} {w : World K} (hsource : w.ba.config.state_source ≠ .impact)
    (ht : Tracked w) (h : Judged off w) (op : BaOp K) :
    Judged (off || takesOff w op) (w.step op) := by
  rcases step_cases ht op with ⟨hoff, hba, -⟩ | ⟨k, rfl, hk, hstep⟩ |
    ⟨k, old, i, rfl, hk, hold, hstep⟩ | ⟨k, i, rfl, hk, hstep⟩
  · rw [hoff, Bool.or_false]
    exact ⟨by rw [hba]; exact h.hard, by rw [hba]; exact h.soft⟩
  · have hoff : takesOff w (.add_impact k) = false := rfl
    have hentries : w.ba.impacts.entries = (w.ba.impacts.erase k).entries :=
      (List.kerase_of_notMem_keys hk).symm
    have hhard := h.hard.apply ⟨k, w.report k⟩
    have hsoft := h.soft.apply ⟨k, w.report k⟩
    rw [hentries] at hhard hsoft
    rw [hstep, hoff, Bool.or_false]
    exact ⟨hhard, hsoft⟩
  · have hoff : takesOff w (.child_has_update k i) = true :=
      decide_eq_true ⟨mem_of_lookup hk, fun heq => hold ((ht k old hk).symm.trans heq)⟩
    obtain ⟨hhard, hsoft⟩ := h.unapply hsource k old
    rw [← (unapply_impact_frame k old w.ba).1] at hhard hsoft
    rw [hstep, hoff, Bool.or_true]
    exact ⟨hhard.apply ⟨k, i⟩, hsoft.apply ⟨k, i⟩⟩
  · have hoff : takesOff w (.remove_impact k) = true := decide_eq_true (mem_of_lookup hk)
    obtain ⟨hhard, hsoft⟩ := h.unapply hsource k i
    rw [← (unapply_impact_frame k i w.ba).1] at hhard hsoft
    rw [hstep, hoff, Bool.or_true]
    exact ⟨hhard, hsoft⟩

theorem Judged.run {off : Bool} {w : World K} (hsource : w.ba.config.state_source ≠ .impact)
    (ht : Tracked w) (h : Judged off w) (ops : List (BaOp K)) :
    Judged (off || takenOff w ops) (w.run ops) := by
  induction ops generalizing w off with
  | nil =>
    rw [takenOff, Bool.or_false]
    exact h
  | cons op ops ih =>
    have hsource' : (w.step op).ba.config.state_source ≠ .impact := by rwa [step_config ht]
    rw [takenOff, ← Bool.or_assoc]
    exact ih hsource' (ht.step op) (h.step hsource ht op)

/-! ## The reports -/

/-- The BA reports the state of the KPIs that count, hard and soft. -/
def HistoryFree (fl : ℚ → ℚ) (w : World K) : Prop :=
  StateOf fl w.ba.config hard_impact w.considered w.report
      (get_state_hard fl (fun k => (w.report k).in_downtime) w.ba) ∧
    StateOf fl w.ba.config soft_impact w.considered w.report (get_state_soft fl w.ba)

/-- The thresholds do not tell two percentages apart: of `size` KPIs and of `size'`. -/
def SameSide (fl : ℚ → ℚ) (c : Config) (num size size' : ℕ) : Prop :=
  atLeast (percent fl num size) (fl c.level_critical) =
      atLeast (percent fl num size') (fl c.level_critical) ∧
    (atLeast (percent fl num size) (fl c.level_critical) = true ∨
      atLeast (percent fl num size) (fl c.level_warning) =
        atLeast (percent fl num size') (fl c.level_warning))

/-- The KPIs of a set that are critical. -/
def criticals (w : World K) (side : ImpactInfo → ImpactValues) : ℕ :=
  (w.considered.filter fun k => (side (w.report k)).state = .critical).card

/-- When a BA reports on one side what it should, by the source of its state. `off` tells whether it
has taken an impact off. -/
def SideFaithful (fl : ℚ → ℚ) (off : Bool) (w : World K) (side : ImpactInfo → ImpactValues) : Prop :=
  match w.ba.config.state_source with
  | .best =>
    if off then
      w.considered.Nonempty ∧ Ranked is_state_better w.considered fun k => (side (w.report k)).state
    else w.considered = ∅ ∨ (∃ k ∈ w.considered, (side (w.report k)).state = .ok) ∧
      ∀ k ∈ w.considered, (side (w.report k)).state ≠ .pending
  | .worst => Ranked is_state_worse w.considered fun k => (side (w.report k)).state
  | .ratio_percent =>
    SameSide fl w.ba.config (w.criticals side) w.attached.card w.considered.card
  | _ => True

/-- When a run leaves a BA that reports what it should. -/
def Faithful (fl : ℚ → ℚ) (w : World K) (ops : List (BaOp K)) : Prop :=
  SideFaithful fl (takenOff w ops) (w.run ops) hard_impact ∧
    SideFaithful fl (takenOff w ops) (w.run ops) soft_impact

theorem update_state_eq_iff (p p' : Option ℚ) (crit warn : ℚ) :
    update_state p crit warn = update_state p' crit warn ↔
      atLeast p crit = atLeast p' crit ∧
        (atLeast p crit = true ∨ atLeast p warn = atLeast p' warn) := by
  unfold update_state
  cases atLeast p crit <;> cases atLeast p' crit <;> cases atLeast p warn <;>
    cases atLeast p' warn <;> decide

/-- The KPIs that count are those of the entries. -/
theorem counted_entries (w : World K) :
    Totals.counted w.ba.config w.report w.ba.impacts.entries = w.considered := rfl

theorem tracked_entries {w : World K} (ht : Tracked w) :
    ∀ e ∈ w.ba.impacts.entries, w.report e.1 = e.2 :=
  fun e he => ht e.1 e.2 (AList.mem_lookup_iff.mpr he)

/-- When every KPI is in downtime and that matters, none counts. -/
theorem considered_of_every {w : World K}
    (hdt : w.ba.config.dt_behaviour = .dt_ignore_kpi)
    (h : every_kpi_in_dt (fun k => (w.report k).in_downtime) w.ba = true) : w.considered = ∅ := by
  obtain ⟨-, hall⟩ := Bool.and_eq_true_iff.mp h
  refine filter_eq_empty_iff.mpr fun k hk => ?_
  have hk := List.all_eq_true.mp hall k (List.mem_toFinset.mp hk)
  simp [ignored, hdt, hk]

section Sources

variable {fl : ℚ → ℚ} {w : World K} {off : Bool} {side : ImpactInfo → ImpactValues} {t : Totals}

/-- Where a BA starts from comes before every state, except that of a new one that takes the best. -/
theorem last_of_ranked {before : State → State → Bool} (hr : Ranks before)
    (happly : ∀ s t, (Totals.applyState w.ba.config s t).computed_state =
      if before t.computed_state s then s else t.computed_state)
    (hfirst : ∀ s, s = (base w.ba.config off).computed_state ∨
      before (base w.ba.config off).computed_state s) (ht : Tracked w)
    (hb : Brought side w.ba.config off w.ba.impacts.entries t)
    (hranked : Ranked before w.considered fun k => (side (w.report k)).state) :
    if w.considered = ∅ then t.computed_state = (base w.ba.config off).computed_state
    else Last before w.considered (fun k => (side (w.report k)).state) t.computed_state := by
  have hst : t.computed_state = _ := congrArg Prod.fst hb
  obtain ⟨hmem, hall⟩ := Totals.total_last side hr happly hfirst (tracked_entries ht) hranked
  rw [counted_entries] at hmem hall
  rw [hst]
  split
  · rename_i hs
    exact hmem.resolve_right fun ⟨k, hk, _⟩ => by simp [hs] at hk
  · rename_i hs
    refine ⟨?_, hall⟩
    rcases hmem with heq | hmem
    · obtain ⟨k, hk⟩ := nonempty_iff_ne_empty.mpr hs
      refine ⟨k, hk, (hall k hk).resolve_right fun hlt => ?_⟩
      -- a state that comes before the first one is that one
      rw [heq] at hlt
      rcases hfirst (side (w.report k)).state with hk | hgt
      · rw [hk] at hlt
        exact hr.asymm _ _ hlt hlt
      · exact hr.asymm _ _ hlt hgt
    · exact hmem

theorem worst_iff (hsource : w.ba.config.state_source = .worst) (ht : Tracked w)
    (hb : Brought side w.ba.config off w.ba.impacts.entries t) :
    StateOf fl w.ba.config side w.considered w.report (Ba.state fl t w.ba) ↔
      SideFaithful fl off w side := by
  have hbase : (base w.ba.config off).computed_state = .ok := by
    cases off with
    | false => rfl
    | true =>
      show (Totals.init.reset w.ba.config).computed_state = .ok
      unfold Totals.reset
      simp only [hsource]
  simp only [StateOf, SideFaithful, Ba.state, hsource]
  constructor
  · intro hstate
    by_cases hs : w.considered = ∅
    · exact fun k hk => by simp [hs] at hk
    · rw [if_neg hs] at hstate
      exact hstate.ranked ranks_worse
  · intro hranked
    have happly : ∀ s t, (Totals.applyState w.ba.config s t).computed_state =
        if is_state_worse t.computed_state s then s else t.computed_state :=
      fun s t => by simp only [Totals.applyState, hsource]
    have hlast := last_of_ranked ranks_worse happly (by rw [hbase]; decide) ht hb hranked
    rwa [hbase] at hlast

theorem best_iff (hsource : w.ba.config.state_source = .best) (ht : Tracked w)
    (hb : Brought side w.ba.config off w.ba.impacts.entries t) :
    StateOf fl w.ba.config side w.considered w.report (Ba.state fl t w.ba) ↔
      SideFaithful fl off w side := by
  have happly : ∀ s t, (Totals.applyState w.ba.config s t).computed_state =
      if is_state_better t.computed_state s then s else t.computed_state :=
    fun s t => by simp only [Totals.applyState, hsource]
  simp only [StateOf, SideFaithful, Ba.state, hsource]
  cases off with
  | false =>
    -- nothing is better than the OK that a new BA starts from
    have hst : t.computed_state = .ok :=
      (congrArg Prod.fst hb).trans (Totals.total_stays side happly (t := Totals.init) (by decide) _)
    have hok : ∀ a : State, (a = .ok ∨ is_state_better a .ok) ↔ a ≠ .pending := by decide
    rw [hst, if_neg Bool.false_ne_true]
    by_cases hs : w.considered = ∅
    · simp only [hs, if_true, true_or]
    · rw [if_neg hs, or_iff_right hs]
      constructor
      · intro hlast
        exact ⟨hlast.mem, fun k hk => (hok _).mp (hlast.before k hk)⟩
      · rintro ⟨hmem, hall⟩
        exact ⟨hmem, fun k hk => (hok _).mpr (hall k hk)⟩
  | true =>
    have hbase : (base w.ba.config true).computed_state = .critical := by
      show (Totals.init.reset w.ba.config).computed_state = .critical
      unfold Totals.reset
      simp only [hsource]
    rw [if_pos rfl]
    by_cases hs : w.considered = ∅
    · have hlast := last_of_ranked ranks_better happly (by rw [hbase]; decide) ht hb
        fun k hk => by simp [hs] at hk
      rw [if_pos hs, hbase] at hlast
      rw [if_pos hs, hlast, hs]
      exact iff_of_false (by decide) fun hne => not_nonempty_empty hne.1
    · have hne := nonempty_iff_ne_empty.mpr hs
      rw [if_neg hs]
      constructor
      · intro hlast
        exact ⟨hne, hlast.ranked ranks_better⟩
      · rintro ⟨-, hranked⟩
        have hlast := last_of_ranked ranks_better happly (by rw [hbase]; decide) ht hb hranked
        rwa [if_neg hs] at hlast

/-- The count, for both ratios. -/
theorem num_critical_childs_eq
    (hsource : w.ba.config.state_source = .ratio_number ∨
      w.ba.config.state_source = .ratio_percent) (ht : Tracked w)
    (hb : Brought side w.ba.config off w.ba.impacts.entries t) :
    t.num_critical_childs = w.criticals side := by
  have hbase : (base w.ba.config off).num_critical_childs = 0 := by
    cases off with
    | false => rfl
    | true =>
      show (Totals.init.reset w.ba.config).num_critical_childs = 0
      unfold Totals.reset
      rcases hsource with hs | hs <;> simp only [hs]
  have hnum : t.num_critical_childs = _ := (congrArg Prod.snd hb).trans
    (Totals.total_ratio _ hsource _ w.ba.impacts.nodupKeys (tracked_entries ht))
  rwa [hbase, Nat.zero_add, counted_entries] at hnum

/-- **One side**, where the state does not come from impacts. -/
theorem side_iff (hsource : w.ba.config.state_source ≠ .impact) (ht : Tracked w)
    (hb : Brought side w.ba.config off w.ba.impacts.entries t) :
    StateOf fl w.ba.config side w.considered w.report (Ba.state fl t w.ba) ↔
      SideFaithful fl off w side := by
  cases hs : w.ba.config.state_source with
  | impact => exact absurd hs hsource
  | best => exact best_iff hs ht hb
  | worst => exact worst_iff hs ht hb
  | ratio_number =>
    have hnum := num_critical_childs_eq (.inl hs) ht hb
    simp only [StateOf, SideFaithful, Ba.state, hs, hnum]
    exact iff_of_true rfl trivial
  | ratio_percent =>
    have hnum := num_critical_childs_eq (.inr hs) ht hb
    have hcard : w.ba.impacts.keys.length = w.attached.card :=
      (List.toFinset_card_of_nodup w.ba.impacts.keys_nodup).symm
    simp only [StateOf, SideFaithful, Ba.state, hs, hnum, hcard]
    exact update_state_eq_iff _ _ _ _
  | other =>
    simp only [StateOf, SideFaithful, Ba.state, hs]

/-- With impacts as the source, there are the levels. -/
theorem impact_side (hsource : w.ba.config.state_source = .impact) (h : Folded w side t) :
    StateOf fl w.ba.config side w.considered w.report (Ba.state fl t w.ba) := by
  simp only [StateOf, Ba.state, hsource, h.level]

/-- Where all the KPIs are in downtime and that matters, a BA that looks for it reports what it should
on both sides or on none. -/
theorem historyFree_iff_of_sides (hhard : StateOf fl w.ba.config hard_impact w.considered
      w.report (Ba.state fl w.ba.hard w.ba) ↔ SideFaithful fl off w hard_impact)
    (hsoft : StateOf fl w.ba.config soft_impact w.considered w.report
      (Ba.state fl w.ba.soft w.ba) ↔ SideFaithful fl off w soft_impact) :
    HistoryFree fl w ↔ SideFaithful fl off w hard_impact ∧
      SideFaithful fl off w soft_impact := by
  unfold HistoryFree get_state_hard get_state_soft
  split
  · rename_i hall
    have hs : w.considered = ∅ := considered_of_every hall.2.1 hall.2.2
    have hok : StateOf fl w.ba.config hard_impact w.considered w.report .ok := by
      rcases hall.1 with hsource | hsource <;> simp only [StateOf, hsource, hs, if_true]
    have hsides : SideFaithful fl off w hard_impact ↔
        SideFaithful fl off w soft_impact := by
      rcases hall.1 with hsource | hsource <;> simp [SideFaithful, Ranked, hsource, hs]
    rw [hsoft, hsides, and_self]
    exact and_iff_right hok
  · rw [hhard, hsoft]

end Sources

/-- A run from a new BA, by the source of its state. -/
theorem historyFree_iff (fl : ℚ → ℚ) (c : Config) (report : K → ImpactInfo) (ops : List (BaOp K)) :
    HistoryFree fl ((start c report).run ops) ↔ Faithful fl (start c report) ops := by
  obtain ⟨ht, hc, -⟩ := @run_invariant K _ c (fun _ => True) report trivial
    (fun _ _ _ _ _ => trivial) ops
  by_cases himpact : c.state_source = .impact
  · obtain ⟨-, -, hs⟩ := @run_invariant K _ c (fun w => Summed w.ba) report (Summed.init _)
      (fun w op ht hc hs => Summed.step (by rw [hc, himpact]) ht hs op) ops
    have hsource : ((start c report).run ops).ba.config.state_source = .impact := by rw [hc, himpact]
    have hfaithful : ∀ side, SideFaithful fl (takenOff (start c report) ops)
        ((start c report).run ops) side := fun side => by simp only [SideFaithful, hsource]
    exact historyFree_iff_of_sides
      (iff_of_true (impact_side hsource (folded_of_total ht _ hs.hard)) (hfaithful _))
      (iff_of_true (impact_side hsource (folded_of_total ht _ hs.soft)) (hfaithful _))
  · have hj : Judged (takenOff (start c report) ops) ((start c report).run ops) := by
      have hrun := (Judged.start c report).run himpact (Tracked.start c report) ops
      rwa [Bool.false_or] at hrun
    have hsource : ((start c report).run ops).ba.config.state_source ≠ .impact := by rwa [hc]
    exact historyFree_iff_of_sides (side_iff hsource ht hj.hard) (side_iff hsource ht hj.soft)

/--
**The state a BA reports.** It is the state of the KPIs that count exactly when the run is
faithful; and two such runs that leave the same KPIs with the same answers report the same.
-/
theorem states_of_attached_iff (fl : ℚ → ℚ) (c : Config) :
    (∀ (report : K → ImpactInfo) (ops : List (BaOp K)),
      HistoryFree fl ((start c report).run ops) ↔ Faithful fl (start c report) ops) ∧
    ∀ (report report' : K → ImpactInfo) (ops ops' : List (BaOp K)),
      let w := (start c report).run ops
      let w' := (start c report').run ops'
      Faithful fl (start c report) ops → Faithful fl (start c report') ops' →
      w.considered = w'.considered → (∀ k ∈ w.considered, w.report k = w'.report k) →
      get_state_hard fl (fun k => (w.report k).in_downtime) w.ba =
          get_state_hard fl (fun k => (w'.report k).in_downtime) w'.ba ∧
        get_state_soft fl w.ba = get_state_soft fl w'.ba := by
  refine ⟨historyFree_iff fl c, ?_⟩
  intro report report' ops ops' w w' hf hf' hconsidered hreport
  obtain ⟨hhard, hsoft⟩ := (historyFree_iff fl c report ops).mpr hf
  obtain ⟨hhard', hsoft'⟩ := (historyFree_iff fl c report' ops').mpr hf'
  have hc : ∀ (r : K → ImpactInfo) (o : List (BaOp K)), ((start c r).run o).ba.config = c :=
    fun r o => (@run_invariant K _ c (fun _ => True) r trivial (fun _ _ _ _ _ => trivial) o).2.1
  rw [hc, ← hconsidered] at hhard' hsoft'
  rw [hc] at hhard hsoft
  exact ⟨hhard.unique hreport hhard', hsoft.unique hreport hsoft'⟩

/-- What a KPI answers in some state, with no impact. -/
def inState (s : State) : ImpactInfo := ⟨⟨0, 0, 0, s⟩, ⟨0, 0, 0, s⟩, false⟩

/-- A BA that takes the worst state, of a KPI in some state and one that is pending. -/
def worstOf (s : State) (ops : List (BaOp Bool)) : World Bool :=
  (start ⟨.worst, .dt_ignore, 0, 0, true⟩ fun k => inState (if k then .pending else s)).run ops

/-- With one that is OK, it is pending, whatever the other has been. -/
theorem states_of_attached_iff_pending :
    get_state_hard id (fun _ => false) (worstOf .ok [.add_impact true, .add_impact false]).ba =
        get_state_hard id (fun _ => false) (worstOf .critical [.add_impact false,
          .add_impact true, .child_has_update false (inState .ok)]).ba ∧
      get_state_soft id (worstOf .ok [.add_impact true, .add_impact false]).ba =
        get_state_soft id (worstOf .critical [.add_impact false,
          .add_impact true, .child_has_update false (inState .ok)]).ba :=
  (states_of_attached_iff id ⟨.worst, .dt_ignore, 0, 0, true⟩).2 _ _ _ _
    (show Ranked _ _ _ ∧ Ranked _ _ _ by decide +kernel)
    (show Ranked _ _ _ ∧ Ranked _ _ _ by decide +kernel) (by decide +kernel) (by decide +kernel)

/-- A BA that takes the best state, and its one KPI, which is critical. -/
def bestOfOne (ops : List (BaOp Unit)) : World Unit :=
  (start ⟨.best, .dt_ignore, 0, 0, true⟩ fun _ => inState .critical).run (.add_impact () :: ops)

/--
**Histories that end alike.** A critical KPI is reported as OK when it is new, and as critical
after it has been something else. Of a pending KPI and a critical one, the one that was added
first is the worst.
-/
theorem not_states_of_attached :
    (bestOfOne []).considered = {()} ∧ (bestOfOne []).report () = inState .critical ∧
    (bestOfOne [.child_has_update () (inState .warning),
      .child_has_update () (inState .critical)]).considered = {()} ∧
    (bestOfOne [.child_has_update () (inState .warning),
      .child_has_update () (inState .critical)]).report () = inState .critical ∧
    get_state_hard id (fun _ => false) (bestOfOne []).ba = .ok ∧
    get_state_hard id (fun _ => false) (bestOfOne [.child_has_update () (inState .warning),
      .child_has_update () (inState .critical)]).ba = .critical ∧
    ¬HistoryFree id (bestOfOne []) ∧
    (worstOf .critical [.add_impact true, .add_impact false]).considered =
      (worstOf .critical [.add_impact false, .add_impact true]).considered ∧
    (∀ k, (worstOf .critical [.add_impact true, .add_impact false]).report k =
      (worstOf .critical [.add_impact false, .add_impact true]).report k) ∧
    get_state_soft id (worstOf .critical [.add_impact true, .add_impact false]).ba = .pending ∧
    get_state_soft id (worstOf .critical [.add_impact false, .add_impact true]).ba = .critical := by
  have hfree : ¬HistoryFree id (bestOfOne []) := by
    intro ⟨hhard, _⟩
    obtain ⟨k, -, hst⟩ := Last.mem hhard
    cases k
    exact absurd hst (by decide +kernel)
  simp only [hfree, not_false_eq_true, true_and]
  decide +kernel

end World

end CentreonBroker.Bam
