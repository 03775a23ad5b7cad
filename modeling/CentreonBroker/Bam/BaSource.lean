import CentreonBroker.Bam.BaApplier

/-!
# A BA under another source of its state

The levels of a BA add up whatever the source of its state is; its computed state is only kept
for the best and the worst state, and its critical KPIs are only counted for the ratios. When
the source changes, the totals stay as the old one left them.
-/

namespace CentreonBroker.Bam.BaApplier

open Totals Ba ImpactInfo

/-! ## Impacts that are added -/

/-- The impacts of a BA once some were added. -/
def gather (impacts : List (ℕ × ImpactInfo)) : AList (fun _ : ℕ => ImpactInfo) :=
  impacts.foldl (fun m i => if i.1 ∈ m then m else m.insert i.1 i.2) ∅

/-- Adding impacts leaves the totals of the entries. -/
theorem attached_spec (c : Config) (impacts : List (ℕ × ImpactInfo)) :
    let b : Ba ℕ := impacts.foldl (fun b i => b.add_impact i.1 i.2) (.init c)
    b.config = c ∧ b.impacts = gather impacts ∧ Ba.Summed b := by
  induction impacts using List.reverseRecOn with
  | nil => exact ⟨rfl, rfl, Ba.Summed.init c⟩
  | append_singleton impacts i ih =>
    obtain ⟨hconfig, himpacts, hsummed⟩ := ih
    rw [gather, List.foldl_append, List.foldl_append, ← gather]
    dsimp only [List.foldl_cons, List.foldl_nil]
    generalize impacts.foldl (fun b i => b.add_impact i.1 i.2) (Ba.init c) = b at *
    rw [Ba.add_impact, himpacts]
    split
    · exact ⟨hconfig, himpacts, hsummed⟩
    · rename_i hnew
      have herase : b.impacts.erase i.1 = b.impacts := by
        refine AList.ext (List.kerase_of_notMem_keys ?_)
        rw [himpacts]
        exact hnew
      have happly := Ba.Summed.apply (b := b) (k := i.1) i.2 (by rw [herase]; exact hsummed.hard)
        (by rw [herase]; exact hsummed.soft)
      rw [himpacts] at happly
      exact ⟨hconfig, rfl, happly⟩

/-! ## The totals under two sources -/

variable {c c' : Config} (side : ImpactInfo → ImpactValues)

theorem ignored_congr (h : c.dt_behaviour = c'.dt_behaviour) (d : Bool) :
    ignored c d = ignored c' d := by
  unfold ignored
  rw [h]

/-- Two sources that treat a state alike leave the same totals. -/
theorem total_congr (hdt : c.dt_behaviour = c'.dt_behaviour)
    (happly : ∀ s t, applyState c s t = applyState c' s t)
    (l : List (Sigma fun _ : ℕ => ImpactInfo)) (t : Totals) :
    t.total side c l = t.total side c' l := by
  induction l with
  | nil => rfl
  | cons e l ih =>
    show (t.total side c l).apply c e.2.in_downtime (side e.2) =
      (t.total side c' l).apply c' e.2.in_downtime (side e.2)
    rw [ih, Totals.apply, Totals.apply, ignored_congr hdt, happly]

theorem level_congr (hdt : c.dt_behaviour = c'.dt_behaviour)
    (l : List (Sigma fun _ : ℕ => ImpactInfo)) (t : Totals) :
    (t.total side c l).level = (t.total side c' l).level := by
  rw [total_level, total_level]
  simp only [ignored_congr hdt]

/-- Only the worst state is ever computed: nothing is better than the one of the constructor. -/
theorem computed_ok (h : c.state_source ≠ .worst) (l : List (Sigma fun _ : ℕ => ImpactInfo)) :
    (Totals.init.total side c l).computed_state = .ok := by
  induction l with
  | nil => rfl
  | cons e l ih =>
    have hfst := congrArg Prod.fst
      (apply_verdict (c := c) e.2.in_downtime (side e.2) (Totals.init.total side c l))
    refine Eq.trans hfst ?_
    split
    · exact ih
    · show (applyState c (side e.2).state (Totals.init.total side c l)).computed_state = .ok
      rw [applyState]
      cases hsource : c.state_source with
      | worst => exact absurd hsource h
      | best =>
        dsimp only
        rw [ih]
        rfl
      | _ => exact ih

/-- `ratio_number` and `ratio_percent`. -/
def IsRatio (source : StateSource) : Prop := source = .ratio_number ∨ source = .ratio_percent

/-- The other sources do not count. -/
theorem criticals_zero (h : ¬IsRatio c.state_source) (l : List (Sigma fun _ : ℕ => ImpactInfo)) :
    (Totals.init.total side c l).num_critical_childs = 0 := by
  induction l with
  | nil => rfl
  | cons e l ih =>
    have hsnd := congrArg Prod.snd
      (apply_verdict (c := c) e.2.in_downtime (side e.2) (Totals.init.total side c l))
    refine Eq.trans hsnd ?_
    split
    · exact ih
    · show (applyState c (side e.2).state (Totals.init.total side c l)).num_critical_childs = 0
      rw [applyState]
      cases hsource : c.state_source with
      | ratio_number => exact absurd (.inl hsource) h
      | ratio_percent => exact absurd (.inr hsource) h
      | _ => exact ih

theorem applyState_ratio (h : IsRatio c.state_source) (h' : IsRatio c'.state_source) (s : State)
    (t : Totals) : applyState c s t = applyState c' s t := by
  unfold applyState
  rcases h with h | h <;> rcases h' with h' | h' <;> rw [h, h']

/-! ## The levels of a ratio -/

/-- What is used of the conversion of a `double` to a `float`. -/
structure IsFloat (fl : ℚ → ℚ) : Prop where
  mono : Monotone fl
  zero : fl 0 = 0
  one : fl 1 = 1
  hundred : fl 100 = 100

variable {fl : ℚ → ℚ} {size : ℕ}

theorem IsFloat.percent_zero (h : IsFloat fl) (hsize : size ≠ 0) :
    percent fl 0 size = some 0 := by
  rw [percent, if_neg hsize, Nat.cast_zero, zero_div, h.zero, zero_mul, h.zero]

theorem IsFloat.percent_self (h : IsFloat fl) (hsize : size ≠ 0) :
    percent fl size size = some 100 := by
  have hq : (size : ℚ) ≠ 0 := Nat.cast_ne_zero.mpr hsize
  rw [percent, if_neg hsize, div_self hq, h.one, one_mul, h.hundred]

theorem IsFloat.percent_nonneg (h : IsFloat fl) (num : ℕ)
    (hsize : size ≠ 0) :
    ∃ p, percent fl num size = some p ∧ 0 ≤ p := by
  refine ⟨_, if_neg hsize, ?_⟩
  have hdiv : 0 ≤ fl ((num : ℚ) / size) := by
    rw [← h.zero]
    exact h.mono (by positivity)
  rw [← h.zero]
  exact h.mono (by positivity)

theorem IsFloat.percent_le (h : IsFloat fl) {num : ℕ} (hle : num ≤ size)
    (hsize : size ≠ 0) : ∃ p, percent fl num size = some p ∧ p ≤ 100 := by
  refine ⟨_, if_neg hsize, ?_⟩
  have hq : (0 : ℚ) < size := by exact_mod_cast Nat.pos_of_ne_zero hsize
  have hdiv : fl ((num : ℚ) / size) ≤ 1 := by
    rw [← h.one]
    exact h.mono ((div_le_one hq).mpr (by exact_mod_cast hle))
  have hproduct : fl ((num : ℚ) / size) * 100 ≤ 100 := by linarith
  exact le_trans (h.mono hproduct) (le_of_eq h.hundred)

/--
The sources that a BA may change from without a change of its states: the state that is new
does not depend on what the old source did not keep, or its levels leave no choice.
-/
def Carries (fl : ℚ → ℚ) (old : StateSource) (c : Config) : Prop :=
  match c.state_source with
  | .impact | .other => True
  | .best => old ≠ .worst
  | .worst => old = .worst
  | .ratio_number => IsRatio old ∨ fl c.level_critical ≤ 0
  | .ratio_percent => IsRatio old ∨ fl c.level_critical ≤ 0 ∨
      (100 < fl c.level_critical ∧ (fl c.level_warning ≤ 0 ∨ 100 < fl c.level_warning))

variable {p : ℚ}

theorem not_atLeast {level : ℚ} (h : p < level) : atLeast (some p) level = false :=
  decide_eq_false (not_le.mpr h)

variable {warn crit : ℚ}

theorem update_state_critical (h : crit ≤ p) :
    update_state (some p) crit warn = .critical := by
  have hcrit : atLeast (some p) crit = true := decide_eq_true h
  rw [update_state, hcrit]
  rfl

theorem update_state_warning (hcrit : p < crit) (hwarn : warn ≤ p) :
    update_state (some p) crit warn = .warning := by
  have hat : atLeast (some p) warn = true := decide_eq_true hwarn
  rw [update_state, not_atLeast hcrit, hat]
  rfl

theorem update_state_ok (hcrit : p < crit) (hwarn : p < warn) :
    update_state (some p) crit warn = .ok := by
  rw [update_state, not_atLeast hcrit, not_atLeast hwarn]
  rfl

theorem update_state_ne_critical (h : p < crit) :
    update_state (some p) crit warn ≠ .critical := by
  rw [update_state, not_atLeast h, if_neg Bool.false_ne_true]
  split <;> nofun

/-- There are no more critical KPIs than KPIs. -/
theorem criticals_le (m : AList (fun _ : ℕ => ImpactInfo)) :
    (Totals.init.total side c m.entries).num_critical_childs ≤ m.keys.length := by
  have hle : ∀ l : List (Sigma fun _ : ℕ => ImpactInfo),
      (Totals.init.total side c l).num_critical_childs ≤ l.length := by
    intro l
    induction l with
    | nil => exact Nat.le_refl 0
    | cons e l ih =>
      have hsnd := congrArg Prod.snd
        (apply_verdict (c := c) e.2.in_downtime (side e.2) (Totals.init.total side c l))
      have hstep : ∀ t, (applyState c (side e.2).state t).num_critical_childs ≤
          t.num_critical_childs + 1 := by
        intro t
        rw [applyState]
        cases c.state_source with
        | ratio_number | ratio_percent =>
          dsimp only
          split
          · exact Nat.le_refl _
          · exact Nat.le_succ _
        | _ => exact Nat.le_succ _
      refine le_trans (le_of_eq hsnd) ?_
      rw [List.length_cons]
      split
      · exact le_trans ih (Nat.le_succ _)
      · exact le_trans (hstep _) (Nat.succ_le_succ ih)
  rw [AList.keys, List.keys, List.length_map]
  exact hle m.entries

/-- **The states are those under the new source from the start.** -/
theorem state_of_carries (hfl : IsFloat fl) (hdt : c.dt_behaviour = c'.dt_behaviour)
    (hcarries : Carries fl c.state_source c') {b : Ba ℕ} (hb : b.config = c') :
    Ba.state fl (Totals.init.total side c b.impacts.entries) b =
      Ba.state fl (Totals.init.total side c' b.impacts.entries) b := by
  subst hb
  rw [Carries] at hcarries
  rw [Ba.state, Ba.state]
  cases hsource : b.config.state_source with
  | other => rfl
  | impact =>
    rw [level_congr side hdt]
  | best =>
    simp only [hsource] at hcarries
    dsimp only
    rw [computed_ok side hcarries, computed_ok side (by rw [hsource]; decide)]
  | worst =>
    simp only [hsource] at hcarries
    have happly : ∀ s t, applyState c s t = applyState b.config s t := by
      intro s t
      rw [applyState, applyState, hcarries, hsource]
    rw [total_congr side hdt happly]
  | ratio_number =>
    simp only [hsource] at hcarries
    rcases hcarries with hratio | hcrit
    · rw [total_congr side hdt (applyState_ratio hratio (.inl hsource))]
    · dsimp only
      rw [update_state_critical (le_trans hcrit (Nat.cast_nonneg _)),
        update_state_critical (le_trans hcrit (Nat.cast_nonneg _))]
  | ratio_percent =>
    simp only [hsource] at hcarries
    by_cases hratio : IsRatio c.state_source
    · rw [total_congr side hdt (applyState_ratio hratio (.inr hsource))]
    · dsimp only
      by_cases hsize : b.impacts.keys.length = 0
      · rw [percent, percent, if_pos hsize, if_pos hsize]
      · rw [criticals_zero side hratio, hfl.percent_zero hsize]
        obtain ⟨p, hp, hpos⟩ := hfl.percent_nonneg
          (Totals.init.total side b.config b.impacts.entries).num_critical_childs hsize
        rw [hp]
        rcases hcarries with hratio' | hcrit | ⟨hcrit, hwarn⟩
        · exact absurd hratio' hratio
        · rw [update_state_critical hcrit, update_state_critical (le_trans hcrit hpos)]
        · -- no percentage is critical, and each is a warning or none is
          obtain ⟨p', hp', hle⟩ := hfl.percent_le (criticals_le side b.impacts) hsize
          obtain rfl : p = p' := Option.some.inj (hp.symm.trans hp')
          rcases hwarn with hwarn | hwarn
          · rw [update_state_warning (by linarith) hwarn,
              update_state_warning (by linarith) (le_trans hwarn hpos)]
          · rw [update_state_ok (by linarith) (by linarith),
              update_state_ok (by linarith) (by linarith)]

/-! ## What shows the old source -/

/-- A KPI that is critical and brings nothing else. -/
def criticalImpact : ImpactInfo := ⟨⟨0, 0, 0, .critical⟩, ⟨0, 0, 0, .critical⟩, false⟩

def criticals (n : ℕ) : List (ℕ × ImpactInfo) := (List.range n).map fun k => (k, criticalImpact)

theorem gather_criticals (n : ℕ) : (gather (criticals n)).keys.length = n ∧
    ∀ e ∈ (gather (criticals n)).entries, e.1 < n ∧ e.2 = criticalImpact := by
  induction n with
  | zero => exact ⟨rfl, fun _ he => absurd he List.not_mem_nil⟩
  | succ n ih =>
    obtain ⟨hlength, hentries⟩ := ih
    have hnew : n ∉ gather (criticals n) := by
      intro hmem
      obtain ⟨i, hi⟩ := AList.lookup_isSome.mpr hmem |> Option.isSome_iff_exists.mp
      exact absurd (hentries ⟨n, i⟩ (AList.mem_lookup_iff.mp hi)).1 (Nat.lt_irrefl n)
    have hsucc : gather (criticals (n + 1)) = (gather (criticals n)).insert n criticalImpact := by
      rw [gather, criticals, List.range_succ, List.map_append, List.foldl_append, ← criticals,
        ← gather]
      exact if_neg hnew
    rw [hsucc]
    constructor
    · rw [AList.keys_insert, List.length_cons, List.erase_of_not_mem hnew, hlength]
    · rw [AList.entries_insert_of_notMem hnew]
      intro e he
      rcases List.mem_cons.mp he with rfl | he
      · exact ⟨Nat.lt_succ_self n, rfl⟩
      · exact ⟨Nat.lt_succ_of_lt (hentries e he).1, (hentries e he).2⟩

/-- What they leave, where it is kept. -/
theorem total_criticals {l : List (Sigma fun _ : ℕ => ImpactInfo)}
    (h : ∀ e ∈ l, e.2 = criticalImpact) :
    (c.state_source = .worst → l ≠ [] →
      (Totals.init.total soft_impact c l).computed_state = .critical) ∧
    (IsRatio c.state_source →
      (Totals.init.total soft_impact c l).num_critical_childs = l.length) := by
  induction l with
  | nil => exact ⟨fun _ hnil => absurd rfl hnil, fun _ => rfl⟩
  | cons e l ih =>
    obtain ⟨hstate, hratio⟩ := ih fun e' he' => h e' (List.mem_cons_of_mem _ he')
    obtain ⟨k, i⟩ := e
    obtain rfl : i = criticalImpact := h ⟨k, i⟩ List.mem_cons_self
    have hverdict := apply_verdict (c := c) criticalImpact.in_downtime criticalImpact.soft_impact
      (Totals.init.total soft_impact c l)
    have hcounts : ignored c criticalImpact.in_downtime = false :=
      decide_eq_false fun hand => Bool.false_ne_true hand.2
    rw [hcounts, if_neg Bool.false_ne_true] at hverdict
    constructor
    · intro hworst _
      refine Eq.trans (congrArg Prod.fst hverdict) ?_
      show (applyState c .critical _).computed_state = .critical
      rw [applyState, hworst]
      cases l with
      | nil => rfl
      | cons e l =>
        dsimp only
        rw [hstate hworst (List.cons_ne_nil _ _)]
        rfl
    · intro hsource
      refine Eq.trans (congrArg Prod.snd hverdict) ?_
      show (applyState c .critical _).num_critical_childs = _
      rw [List.length_cons, ← hratio hsource]
      rcases hsource with hs | hs
      · rw [applyState, hs]
        rfl
      · rw [applyState, hs]
        rfl

/-- **A source that may not be changed from shows in a soft state.** -/
theorem carries_of_state (hfl : IsFloat fl)
    (h : ∀ n, ∀ b : Ba ℕ, b.config = c' → b.impacts = gather (criticals n) →
      Ba.state fl (Totals.init.total soft_impact c b.impacts.entries) b =
        Ba.state fl (Totals.init.total soft_impact c' b.impacts.entries) b) :
    Carries fl c.state_source c' := by
  have hstates : ∀ n, ∃ b : Ba ℕ, b.config = c' ∧ b.impacts.keys.length = n ∧
      b.impacts.entries.length = n ∧ (∀ e ∈ b.impacts.entries, e.2 = criticalImpact) ∧
      Ba.state fl (Totals.init.total soft_impact c b.impacts.entries) b =
        Ba.state fl (Totals.init.total soft_impact c' b.impacts.entries) b := by
    intro n
    obtain ⟨hlength, hentries⟩ := gather_criticals n
    refine ⟨⟨c', .init, .init, 0, gather (criticals n)⟩, rfl, hlength, ?_,
      fun e he => (hentries e he).2, h n _ rfl rfl⟩
    rw [AList.keys, List.keys, List.length_map] at hlength
    exact hlength
  rw [Carries]
  cases hsource : c'.state_source with
  | impact => trivial
  | other => trivial
  | best =>
    dsimp only
    intro hworst
    obtain ⟨b, hb, -, hlength, hentries, heq⟩ := hstates 1
    have hne : b.impacts.entries ≠ [] := List.ne_nil_of_length_eq_add_one hlength
    simp only [Ba.state, hb, hsource] at heq
    rw [(total_criticals hentries).1 hworst hne,
      computed_ok soft_impact (by rw [hsource]; decide)] at heq
    cases heq
  | worst =>
    dsimp only
    by_contra hworst
    obtain ⟨b, hb, -, hlength, hentries, heq⟩ := hstates 1
    have hne : b.impacts.entries ≠ [] := List.ne_nil_of_length_eq_add_one hlength
    simp only [Ba.state, hb, hsource] at heq
    rw [computed_ok soft_impact hworst, (total_criticals hentries).1 hsource hne] at heq
    cases heq
  | ratio_number =>
    dsimp only
    by_contra hnot
    obtain ⟨hratio, hcrit⟩ := not_or.mp hnot
    -- as many critical KPIs as the level asks for
    obtain ⟨b, hb, -, hlength, hentries, heq⟩ := hstates ⌈fl c'.level_critical⌉₊
    simp only [Ba.state, hb, hsource] at heq
    rw [criticals_zero soft_impact hratio,
      (total_criticals hentries).2 (.inl hsource), hlength,
      update_state_critical (Nat.le_ceil _)] at heq
    exact update_state_ne_critical (by simpa using hcrit) heq
  | ratio_percent =>
    dsimp only
    by_contra hnot
    obtain ⟨hratio, hnot⟩ := not_or.mp hnot
    obtain ⟨hcrit, hlevels⟩ := not_or.mp hnot
    obtain ⟨b, hb, hsize, hlength, hentries, heq⟩ := hstates 1
    simp only [Ba.state, hb, hsource] at heq
    rw [criticals_zero soft_impact hratio,
      (total_criticals hentries).2 (.inr hsource), hlength, hsize,
      hfl.percent_zero Nat.one_ne_zero, hfl.percent_self Nat.one_ne_zero] at heq
    by_cases hhundred : fl c'.level_critical ≤ 100
    · rw [update_state_critical hhundred] at heq
      exact update_state_ne_critical (not_le.mp hcrit) heq
    · -- then the level of a warning is what tells
      rw [not_and_or, not_or] at hlevels
      rcases hlevels with hlevels | ⟨hwarn, hwarn'⟩
      · exact hlevels (not_le.mp hhundred)
      · rw [update_state_warning (not_le.mp hhundred) (not_lt.mp hwarn'),
          update_state_ok (not_le.mp hcrit) (not_le.mp hwarn)] at heq
        cases heq

end CentreonBroker.Bam.BaApplier
