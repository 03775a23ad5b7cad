import CentreonBroker.Bam.Ba
import CentreonBroker.Lib.Entries

/-!
# What the totals of a BA add up to

A total is a fold over the entries, and the entries are what the attached KPIs answer. With
`impact` as the source of the state, applying impacts commutes, taking one off undoes what
applying it did, and `_recompute` finds the totals as it leaves them.
-/

namespace CentreonBroker.Bam

open Ba ImpactInfo AList

/-! ## Folds -/

namespace Totals

variable {K : Type} {c : Config} (side : ImpactInfo → ImpactValues)

/-- The totals with the state part left out, and that part. -/
def verdict (t : Totals) : State × ℕ := (t.computed_state, t.num_critical_childs)

@[simp] theorem applyState_acknowledgement (s : State) (t : Totals) :
    (t.applyState c s).acknowledgement = t.acknowledgement := by
  unfold applyState
  cases c.state_source <;> rfl

@[simp] theorem applyState_downtime (s : State) (t : Totals) :
    (t.applyState c s).downtime = t.downtime := by
  unfold applyState
  cases c.state_source <;> rfl

@[simp] theorem applyState_level (s : State) (t : Totals) :
    (t.applyState c s).level = t.level := by
  unfold applyState
  cases c.state_source <;> rfl

variable {t' t : Totals}

theorem applyState_verdict {s : State} (h : t.verdict = t'.verdict) :
    (t.applyState c s).verdict = (t'.applyState c s).verdict := by
  obtain ⟨hstate, hnum⟩ := Prod.mk.inj h
  unfold applyState verdict
  cases c.state_source <;> simp [hstate, hnum]

theorem ext_verdict (hack : t.acknowledgement = t'.acknowledgement)
    (hdt : t.downtime = t'.downtime) (hlevel : t.level = t'.level)
    (h : t.verdict = t'.verdict) : t = t' := by
  obtain ⟨hstate, hnum⟩ := Prod.mk.inj h
  cases t
  cases t'
  simp_all

/-! One `apply`, field by field. -/

@[simp] theorem apply_acknowledgement (d : Bool) (i : ImpactValues) (t : Totals) :
    (t.apply c d i).acknowledgement = t.acknowledgement + i.acknowledgement := by
  unfold apply
  split <;> simp

@[simp] theorem apply_downtime (d : Bool) (i : ImpactValues) (t : Totals) :
    (t.apply c d i).downtime = t.downtime + i.downtime := by
  unfold apply
  split <;> simp

theorem apply_level (d : Bool) (i : ImpactValues) (t : Totals) :
    (t.apply c d i).level = t.level - if ignored c d then 0 else i.nominal := by
  by_cases h : ignored c d
  · simp [apply, h]
  · simp [apply, h]

theorem apply_verdict (d : Bool) (i : ImpactValues) (t : Totals) :
    (t.apply c d i).verdict = if ignored c d then t.verdict else (t.applyState c i.state).verdict := by
  unfold apply
  split
  · rfl
  · exact applyState_verdict rfl

theorem verdict_apply {d : Bool} {i : ImpactValues} (h : t.verdict = t'.verdict) :
    (t.apply c d i).verdict = (t'.apply c d i).verdict := by
  rw [apply_verdict, apply_verdict, h, applyState_verdict h]

/-- What the entries of a list bring, on one side. -/
def total (c : Config) (l : List (Sigma fun _ : K => ImpactInfo)) (t : Totals) : Totals :=
  l.foldr (fun e t => t.apply c e.2.in_downtime (side e.2)) t

theorem total_verdict (l : List (Sigma fun _ : K => ImpactInfo))
    (h : t.verdict = t'.verdict) : (total side c l t).verdict = (total side c l t').verdict := by
  induction l with
  | nil => exact h
  | cons e l ih => exact verdict_apply ih

/-! With `impact` as the source. -/

section Impact

variable (h : c.state_source = .impact)
include h

theorem applyState_impact (s : State) (t : Totals) : t.applyState c s = t := by
  simp only [applyState, h]

theorem total_verdict_impact (l : List (Sigma fun _ : K => ImpactInfo)) (t : Totals) :
    (total side c l t).verdict = t.verdict := by
  induction l with
  | nil => rfl
  | cons e l ih =>
    show ((total side c l t).apply c e.2.in_downtime (side e.2)).verdict = _
    rw [apply_verdict, applyState_impact h, ite_self, ih]

/-- **The order of two impacts does not matter.** -/
theorem apply_comm (d d' : Bool) (i i' : ImpactValues) (t : Totals) :
    (t.apply c d' i').apply c d i = (t.apply c d i).apply c d' i' := by
  refine ext_verdict ?_ ?_ ?_ ?_
  · simp only [apply_acknowledgement, add_right_comm]
  · simp only [apply_downtime, add_right_comm]
  · simp only [apply_level, sub_right_comm]
  · simp only [apply_verdict, applyState_impact h, ite_self]

theorem total_perm {l l' : List (Sigma fun _ : K => ImpactInfo)} (hl : l.Perm l') (t : Totals) :
    total side c l t = total side c l' t := by
  have hcomm : LeftCommutative fun (e : Sigma fun _ : K => ImpactInfo) (t : Totals) =>
      t.apply c e.2.in_downtime (side e.2) := ⟨fun _ _ _ => apply_comm h _ _ _ _ _⟩
  exact hl.foldr_eq t

/-- Taking off what was applied. -/
theorem unapply_apply (d : Bool) (i : ImpactValues) (t : Totals) :
    (t.apply c d i).unapply c d i = t := by
  unfold unapply apply
  by_cases hd : ignored c d
  · simp [hd]
  · simp [hd, applyState_impact h]

theorem clear_total (l : List (Sigma fun _ : K => ImpactInfo)) :
    (total side c l init).clear = init := by
  obtain ⟨hstate, -⟩ := Prod.mk.inj (total_verdict_impact side h l init)
  rw [clear, hstate]
  rfl

end Impact

/-! What the folds come to. -/

theorem total_acknowledgement (l : List (Sigma fun _ : K => ImpactInfo)) (t : Totals) :
    (total side c l t).acknowledgement =
      t.acknowledgement + (l.map fun e => (side e.2).acknowledgement).sum := by
  induction l with
  | nil => simp [total]
  | cons e l ih =>
    show ((total side c l t).apply c e.2.in_downtime (side e.2)).acknowledgement = _
    rw [apply_acknowledgement, ih, List.map_cons, List.sum_cons]
    ring

theorem total_downtime (l : List (Sigma fun _ : K => ImpactInfo)) (t : Totals) :
    (total side c l t).downtime = t.downtime + (l.map fun e => (side e.2).downtime).sum := by
  induction l with
  | nil => simp [total]
  | cons e l ih =>
    show ((total side c l t).apply c e.2.in_downtime (side e.2)).downtime = _
    rw [apply_downtime, ih, List.map_cons, List.sum_cons]
    ring

theorem total_level (l : List (Sigma fun _ : K => ImpactInfo)) (t : Totals) :
    (total side c l t).level = t.level -
      (l.map fun e => if ignored c e.2.in_downtime then 0 else (side e.2).nominal).sum := by
  induction l with
  | nil => simp [total]
  | cons e l ih =>
    show ((total side c l t).apply c e.2.in_downtime (side e.2)).level = _
    rw [apply_level, ih, List.map_cons, List.sum_cons]
    ring

end Totals

/-! ## The operations of a BA -/

namespace Ba

variable {K : Type}

/-- What `applyAll` does to a BA. -/
theorem applyAll_eq (l : List (Sigma fun _ : K => ImpactInfo)) (b : Ba K) :
    applyAll l b = { b with
      hard := b.hard.total hard_impact b.config l
      soft := b.soft.total soft_impact b.config l } := by
  induction l with
  | nil => rfl
  | cons e l ih =>
    show apply_impact e.2 (applyAll l b) = _
    rw [ih]
    rfl

/-- Both totals are what the entries of the BA bring to a new one. -/
structure Summed (b : Ba K) : Prop where
  hard : b.hard = .total hard_impact b.config b.impacts.entries .init
  soft : b.soft = .total soft_impact b.config b.impacts.entries .init

theorem Summed.init [DecidableEq K] (c : Config) : Summed (init c : Ba K) := ⟨rfl, rfl⟩

/-- **`_recompute` finds the totals as it leaves them.** -/
theorem Summed.recompute {b : Ba K} (h : b.config.state_source = .impact) (hb : Summed b) :
    recompute b = { b with recompute_count := 0 } := by
  have hhard : (b.hard.clear).total hard_impact b.config b.impacts.entries = b.hard := by
    rw [hb.hard, Totals.clear_total _ h]
  have hsoft : (b.soft.clear).total soft_impact b.config b.impacts.entries = b.soft := by
    rw [hb.soft, Totals.clear_total _ h]
  rw [Ba.recompute, applyAll_eq]
  exact congrArg₂ (fun hard soft => (⟨b.config, hard, soft, 0, b.impacts⟩ : Ba K)) hhard hsoft

variable [DecidableEq K]

/-- What is left once an impact is taken off, as long as its entry is there. -/
structure TakenOff (k : K) (b b' : Ba K) : Prop where
  config : b'.config = b.config
  impacts : b'.impacts = b.impacts
  hard : b'.hard = .total hard_impact b.config (b.impacts.erase k).entries .init
  soft : b'.soft = .total soft_impact b.config (b.impacts.erase k).entries .init

theorem Summed.unapply {b : Ba K} {k : K} {i : ImpactInfo} (h : b.config.state_source = .impact)
    (hb : Summed b) (hk : b.impacts.lookup k = some i) : TakenOff k b (unapply_impact k i b) := by
  have hperm := Entries.perm_of_lookup hk
  have hhard : b.hard.unapply b.config i.in_downtime i.hard_impact =
      .total hard_impact b.config (b.impacts.erase k).entries .init := by
    rw [hb.hard, Totals.total_perm _ h hperm]
    exact Totals.unapply_apply h _ _ _
  have hsoft : b.soft.unapply b.config i.in_downtime i.soft_impact =
      .total soft_impact b.config (b.impacts.erase k).entries .init := by
    rw [hb.soft, Totals.total_perm _ h hperm]
    exact Totals.unapply_apply h _ _ _
  rw [unapply_impact, if_pos h]
  -- the recomputation, if there is one, changes its counter only
  by_cases hc : b.recompute_count + 1 ≥ recompute_limit
  · have hb' : Summed { b with recompute_count := b.recompute_count + 1 } := ⟨hb.hard, hb.soft⟩
    have hrec := Summed.recompute (b := { b with recompute_count := b.recompute_count + 1 }) h hb'
    simp only [hc, if_true, hrec]
    exact ⟨rfl, rfl, hhard, hsoft⟩
  · simp only [hc, if_false]
    exact ⟨rfl, rfl, hhard, hsoft⟩

/-- An impact that is applied under a key that has no entry. -/
theorem Summed.apply {b : Ba K} {k : K} (i : ImpactInfo)
    (hhard : b.hard = .total hard_impact b.config (b.impacts.erase k).entries .init)
    (hsoft : b.soft = .total soft_impact b.config (b.impacts.erase k).entries .init) :
    Summed (apply_impact i { b with impacts := b.impacts.insert k i }) where
  hard := congrArg (Totals.apply b.config i.in_downtime i.hard_impact) hhard
  soft := congrArg (Totals.apply b.config i.in_downtime i.soft_impact) hsoft

theorem unapply_impact_frame (k : K) (i : ImpactInfo) (b : Ba K) :
    (unapply_impact k i b).config = b.config ∧ (unapply_impact k i b).impacts = b.impacts := by
  unfold unapply_impact
  split
  · dsimp only
    split
    · rw [Ba.recompute, applyAll_eq]
      exact ⟨rfl, rfl⟩
    · exact ⟨rfl, rfl⟩
  · rw [applyAll_eq]
    exact ⟨rfl, rfl⟩

end Ba

/-! ## Runs -/

namespace World

variable {K : Type} [DecidableEq K]

/-- The entries are what the KPIs answer. -/
def Tracked (w : World K) : Prop := ∀ k i, w.ba.impacts.lookup k = some i → w.report k = i

/-- Whether a call takes an impact off. -/
def takesOff (w : World K) : BaOp K → Bool
  | .add_impact _ => false
  | .child_has_update k i => k ∈ w.attached ∧ w.report k ≠ i
  | .remove_impact k => k ∈ w.attached

variable {w : World K}

theorem mem_of_lookup {k : K} {i : ImpactInfo}
    (h : w.ba.impacts.lookup k = some i) : k ∈ w.attached :=
  List.mem_toFinset.mpr (mem_keys.mp (lookup_isSome.mp (by rw [h]; rfl)))

theorem not_mem_of_lookup {k : K} (h : w.ba.impacts.lookup k = none) :
    k ∉ w.attached :=
  fun hk => lookup_eq_none.mp h (mem_keys.mpr (List.mem_toFinset.mp hk))

/-- What a call does. -/
theorem step_cases (ht : Tracked w) (op : BaOp K) :
    (takesOff w op = false ∧ (w.step op).ba = w.ba ∧
      ∀ k ∈ w.ba.impacts, (w.step op).report k = w.report k) ∨
    (∃ k, op = .add_impact k ∧ k ∉ w.ba.impacts ∧
      w.step op = ⟨w.report,
        apply_impact (w.report k) { w.ba with impacts := w.ba.impacts.insert k (w.report k) }⟩) ∨
    (∃ k old i, op = .child_has_update k i ∧ w.ba.impacts.lookup k = some old ∧ old ≠ i ∧
      w.step op = ⟨Function.update w.report k i,
        apply_impact i { unapply_impact k old w.ba with impacts := w.ba.impacts.insert k i }⟩) ∨
    ∃ k i, op = .remove_impact k ∧ w.ba.impacts.lookup k = some i ∧
      w.step op = ⟨w.report,
        { unapply_impact k i w.ba with impacts := w.ba.impacts.erase k }⟩ := by
  cases op with
  | add_impact k =>
    by_cases hk : k ∈ w.ba.impacts
    · exact .inl ⟨rfl, if_pos hk, fun _ _ => rfl⟩
    · refine .inr (.inl ⟨k, rfl, hk, ?_⟩)
      exact congrArg (World.mk w.report) (if_neg hk)
  | child_has_update k i =>
    cases hk : w.ba.impacts.lookup k with
    | none =>
      have hba : (w.ba.child_has_update k i).2 = w.ba := by simp only [Ba.child_has_update, hk]
      have hoff : takesOff w (.child_has_update k i) = false :=
        decide_eq_false fun h => not_mem_of_lookup hk h.1
      refine .inl ⟨hoff, hba, fun k' hk' => Function.update_of_ne ?_ _ _⟩
      rintro rfl
      exact lookup_eq_none.mp hk hk'
    | some old =>
      by_cases hold : old = i
      · have hba : (w.ba.child_has_update k i).2 = w.ba := by
          simp only [Ba.child_has_update, hk, hold, if_true]
        have hoff : takesOff w (.child_has_update k i) = false :=
          decide_eq_false fun h => h.2 ((ht k old hk).trans hold)
        refine .inl ⟨hoff, hba, fun k' _ => ?_⟩
        by_cases hkk : k' = k
        · subst hkk
          exact (Function.update_self _ _ _).trans (hold ▸ (ht k' old hk).symm)
        · exact Function.update_of_ne hkk _ _
      · refine .inr (.inr (.inl ⟨k, old, i, rfl, hk, hold, ?_⟩))
        have hba : (w.ba.child_has_update k i).2 =
            apply_impact i { unapply_impact k old w.ba with impacts := w.ba.impacts.insert k i } := by
          simp only [Ba.child_has_update, hk, hold, if_false, (unapply_impact_frame k old w.ba).2]
        exact congrArg (World.mk _) hba
  | remove_impact k =>
    cases hk : w.ba.impacts.lookup k with
    | none =>
      have hoff : takesOff w (.remove_impact k) = false := decide_eq_false (not_mem_of_lookup hk)
      refine .inl ⟨hoff, ?_, fun _ _ => rfl⟩
      simp only [step, Ba.remove_impact, hk]
    | some i =>
      refine .inr (.inr (.inr ⟨k, i, rfl, hk, ?_⟩))
      simp only [step, Ba.remove_impact, hk, (unapply_impact_frame k i w.ba).2]

theorem step_config (ht : Tracked w) (op : BaOp K) :
    (w.step op).ba.config = w.ba.config := by
  rcases step_cases ht op with ⟨-, hba, -⟩ | ⟨k, -, -, h⟩ | ⟨k, old, i, -, -, -, h⟩ | ⟨k, i, -, -, h⟩
  · rw [hba]
  · rw [h]
    rfl
  · rw [h]
    exact (unapply_impact_frame k old w.ba).1
  · rw [h]
    exact (unapply_impact_frame k i w.ba).1

theorem Tracked.step (ht : Tracked w) (op : BaOp K) : Tracked (w.step op) := by
  intro k' i' hlookup
  rcases step_cases ht op with ⟨-, hba, hrep⟩ | ⟨k, -, -, h⟩ | ⟨k, old, i, -, -, -, h⟩ | ⟨k, i, -, -, h⟩
  · rw [hba] at hlookup
    rw [hrep k' (lookup_isSome.mp (by rw [hlookup]; rfl))]
    exact ht k' i' hlookup
  · rw [h] at hlookup ⊢
    have hlookup : (w.ba.impacts.insert k (w.report k)).lookup k' = some i' := hlookup
    by_cases hkk : k' = k
    · subst hkk
      rw [lookup_insert] at hlookup
      exact Option.some.inj hlookup
    · rw [lookup_insert_ne hkk] at hlookup
      exact ht k' i' hlookup
  · rw [h] at hlookup ⊢
    have hlookup : (w.ba.impacts.insert k i).lookup k' = some i' := hlookup
    by_cases hkk : k' = k
    · subst hkk
      rw [lookup_insert] at hlookup
      exact (Function.update_self _ _ _).trans (Option.some.inj hlookup)
    · rw [lookup_insert_ne hkk] at hlookup
      exact (Function.update_of_ne hkk _ _).trans (ht k' i' hlookup)
  · rw [h] at hlookup ⊢
    have hlookup : (w.ba.impacts.erase k).lookup k' = some i' := hlookup
    by_cases hkk : k' = k
    · subst hkk
      rw [lookup_erase] at hlookup
      exact absurd hlookup nofun
    · rw [lookup_erase_ne hkk] at hlookup
      exact ht k' i' hlookup

theorem Tracked.start (c : Config) (report : K → ImpactInfo) : Tracked (start c report) := by
  intro k i h
  exact absurd (h.symm.trans (lookup_empty k)) nofun

/-- An invariant of every run: the entries, the configuration, and what a step keeps. -/
theorem run_invariant {c : Config} {P : World K → Prop} {report : K → ImpactInfo}
    (h0 : P (start c report))
    (hstep : ∀ w op, Tracked w → w.ba.config = c → P w → P (w.step op)) (ops : List (BaOp K)) :
    Tracked ((start c report).run ops) ∧ ((start c report).run ops).ba.config = c ∧
      P ((start c report).run ops) := by
  induction ops using List.reverseRecOn with
  | nil => exact ⟨.start c report, rfl, h0⟩
  | append_singleton ops op ih =>
    obtain ⟨ht, hc, hp⟩ := ih
    have hrun : (start c report).run (ops ++ [op]) = ((start c report).run ops).step op :=
      List.foldl_append
    rw [hrun]
    exact ⟨ht.step op, (step_config ht op).trans hc, hstep _ op ht hc hp⟩

theorem mem_attached_step (op : BaOp K) (k : K) :
    k ∈ (w.step op).attached ↔
      op = .add_impact k ∨ k ∈ w.attached ∧ op ≠ .remove_impact k := by
  have hmem : ∀ w : World K, k ∈ w.attached ↔ k ∈ w.ba.impacts :=
    fun w => List.mem_toFinset.trans mem_keys.symm
  rw [hmem, hmem]
  cases op with
  | add_impact k' =>
    simp only [step, Ba.add_impact]
    split
    · rename_i hk
      simp only [BaOp.add_impact.injEq, ne_eq, reduceCtorEq, not_false_eq_true, and_true]
      exact ⟨.inr, fun h => h.elim (fun heq => heq ▸ hk) id⟩
    · show k ∈ AList.insert k' _ _ ↔ _
      simp only [mem_insert, BaOp.add_impact.injEq, ne_eq, reduceCtorEq, not_false_eq_true,
        and_true, eq_comm]
  | child_has_update k' i =>
    simp only [step, Ba.child_has_update, reduceCtorEq, ne_eq, not_false_eq_true, and_true, false_or]
    cases hold : w.ba.impacts.lookup k' with
    | none => rfl
    | some old =>
      dsimp only
      split
      · rfl
      · show k ∈ AList.insert k' i (unapply_impact k' old w.ba).impacts ↔ _
        rw [mem_insert, (unapply_impact_frame k' old w.ba).2]
        refine ⟨fun h => h.elim (fun heq => ?_) id, .inr⟩
        exact heq ▸ lookup_isSome.mp (by rw [hold]; rfl)
  | remove_impact k' =>
    simp only [step, Ba.remove_impact, reduceCtorEq, false_or, ne_eq, BaOp.remove_impact.injEq]
    cases hold : w.ba.impacts.lookup k' with
    | none =>
      refine ⟨fun h => ⟨h, ?_⟩, And.left⟩
      rintro rfl
      exact lookup_eq_none.mp hold h
    | some old =>
      show k ∈ AList.erase k' (unapply_impact k' old w.ba).impacts ↔ _
      rw [mem_erase, (unapply_impact_frame k' old w.ba).2, and_comm, eq_comm]

/-- The attached KPIs are those that were added and not removed since. -/
theorem mem_attached_run (c : Config) (report : K → ImpactInfo) (ops : List (BaOp K)) (k : K) :
    k ∈ ((start c report).run ops).attached ↔
      ∃ pre post, ops = pre ++ .add_impact k :: post ∧ .remove_impact k ∉ post := by
  induction ops using List.reverseRecOn with
  | nil => exact iff_of_false (by simp [attached, start, Ba.init, run]) (by simp)
  | append_singleton ops op ih =>
    have hrun : (start c report).run (ops ++ [op]) = ((start c report).run ops).step op :=
      List.foldl_append
    rw [hrun, mem_attached_step, ih]
    constructor
    · rintro (rfl | ⟨⟨pre, post, rfl, hpost⟩, hop⟩)
      · exact ⟨ops, [], rfl, List.not_mem_nil⟩
      · refine ⟨pre, post ++ [op], by simp, ?_⟩
        simpa [eq_comm] using ⟨hpost, hop⟩
    · rintro ⟨pre, post, heq, hpost⟩
      rcases List.eq_nil_or_concat post with rfl | ⟨post, op', rfl⟩
      · exact .inl (List.cons.inj (List.append_inj' heq rfl).2).1
      · rw [List.concat_eq_append] at heq hpost
        have hlast : ops ++ [op] = (pre ++ .add_impact k :: post) ++ [op'] := by simpa using heq
        obtain ⟨rfl, hop⟩ := List.append_inj' hlast rfl
        obtain rfl : op = op' := (List.cons.inj hop).1
        refine .inr ⟨⟨pre, post, rfl, fun hin => hpost (List.mem_append_left _ hin)⟩, ?_⟩
        rintro rfl
        exact hpost (List.mem_append_right _ List.mem_cons_self)

/-! ### With `impact` as the source -/

theorem Summed.step (hsource : w.ba.config.state_source = .impact) (ht : Tracked w)
    (hs : Summed w.ba) (op : BaOp K) : Summed (w.step op).ba := by
  rcases step_cases ht op with ⟨-, hba, -⟩ | ⟨k, -, hk, h⟩ | ⟨k, old, i, -, hk, -, h⟩ | ⟨k, i, -, hk, h⟩
  · rw [hba]
    exact hs
  · have herase : (w.ba.impacts.erase k).entries = w.ba.impacts.entries :=
      List.kerase_of_notMem_keys hk
    rw [h]
    exact Summed.apply _ (herase ▸ hs.hard) (herase ▸ hs.soft)
  · have hoff := hs.unapply hsource hk
    have hins := Summed.apply (b := unapply_impact k old w.ba) i
      (by rw [hoff.config, hoff.impacts]; exact hoff.hard)
      (by rw [hoff.config, hoff.impacts]; exact hoff.soft)
    rw [hoff.impacts] at hins
    rw [h]
    exact hins
  · have hoff := hs.unapply hsource hk
    rw [h]
    exact ⟨by rw [hoff.hard, ← hoff.config], by rw [hoff.soft, ← hoff.config]⟩

/-! ### What the KPIs add up to -/

/-- One total against the attached KPIs: the sums, and what is left of 100. -/
structure Folded (w : World K) (side : ImpactInfo → ImpactValues) (t : Totals) : Prop where
  acknowledgement : t.acknowledgement = ∑ k ∈ w.attached, (side (w.report k)).acknowledgement
  downtime : t.downtime = ∑ k ∈ w.attached, (side (w.report k)).downtime
  level : t.level = 100 - ∑ k ∈ w.considered, (side (w.report k)).nominal

theorem sum_entries (ht : Tracked w) (f : ImpactInfo → ℚ) :
    (w.ba.impacts.entries.map fun e => f e.2).sum = ∑ k ∈ w.attached, f (w.report k) := by
  have hkeys : w.ba.impacts.entries.map (fun e => f e.2) =
      w.ba.impacts.keys.map fun k => f (w.report k) := by
    rw [AList.keys, List.keys, List.map_map]
    refine List.map_congr_left fun e he => ?_
    exact congrArg f (ht e.1 e.2 (mem_lookup_iff.mpr he)).symm
  rw [hkeys, attached, List.sum_toFinset _ w.ba.impacts.keys_nodup]

theorem folded_of_total (ht : Tracked w) (side : ImpactInfo → ImpactValues)
    {t : Totals} (h : t = .total side w.ba.config w.ba.impacts.entries .init) : Folded w side t where
  acknowledgement := by
    rw [h, Totals.total_acknowledgement, sum_entries ht fun i => (side i).acknowledgement]
    exact zero_add _
  downtime := by
    rw [h, Totals.total_downtime, sum_entries ht fun i => (side i).downtime]
    exact zero_add _
  level := by
    rw [h, Totals.total_level,
      sum_entries ht fun i => if ignored w.ba.config i.in_downtime then 0 else (side i).nominal,
      considered, Finset.sum_filter]
    refine congrArg (100 - ·) (Finset.sum_congr rfl fun k _ => ?_)
    by_cases hk : ignored w.ba.config (w.report k).in_downtime <;> simp [hk]

/--
**The totals of a BA whose state comes from impacts.** After any calls they are what the
attached KPIs answer, added up, and a recomputation would find them so.
-/
theorem totals_folded (dt_behaviour : DowntimeBehaviour) (level_critical level_warning : ℚ)
    (valid : Bool) (report : K → ImpactInfo) (ops : List (BaOp K)) :
    let w := (start ⟨.impact, dt_behaviour, level_critical, level_warning, valid⟩ report).run ops
    Folded w hard_impact w.ba.hard ∧ Folded w soft_impact w.ba.soft ∧
      (recompute w.ba).hard = w.ba.hard ∧ (recompute w.ba).soft = w.ba.soft := by
  intro w
  obtain ⟨ht, hc, hs⟩ := @run_invariant K _
    ⟨.impact, dt_behaviour, level_critical, level_warning, valid⟩ (fun w => Summed w.ba) report
    (Summed.init _) (fun w op ht hc hs => Summed.step (by rw [hc]) ht hs op) ops
  have hsource : w.ba.config.state_source = .impact := by rw [hc]
  have hrec := Summed.recompute hsource hs
  exact ⟨folded_of_total ht _ hs.hard, folded_of_total ht _ hs.soft, by rw [hrec], by rw [hrec]⟩

end World

end CentreonBroker.Bam

/-!
## The accumulators of a BA that does not use impacts

A BA publishes its acknowledgements, its downtimes and its level whatever the source of its state
is. Where that is not `impact`, taking an impact off starts the states over, and applies all the
others again: to totals that are not reset. So the totals go on from what they were, and are right
afterwards only if they were those of a BA without KPIs.
-/

namespace CentreonBroker.Bam

open Ba ImpactInfo AList

namespace Totals

variable {K : Type} {c : Config} (side : ImpactInfo → ImpactValues)

/-- The part that is published as levels. -/
def levels (t : Totals) : ℚ × ℚ × ℚ := (t.acknowledgement, t.downtime, t.level)

theorem levels_reset (t : Totals) : (t.reset c).levels = t.levels := by
  unfold reset
  cases c.state_source <;> rfl

theorem levels_apply_iff (d : Bool) (i : ImpactValues) (t t' : Totals) :
    (t.apply c d i).levels = (t'.apply c d i).levels ↔ t.levels = t'.levels := by
  simp only [levels, apply_acknowledgement, apply_downtime, apply_level, Prod.mk.injEq,
    add_left_inj, sub_left_inj]

theorem levels_total_iff (l : List (Sigma fun _ : K => ImpactInfo)) (t t' : Totals) :
    (total side c l t).levels = (total side c l t').levels ↔ t.levels = t'.levels := by
  induction l with
  | nil => exact Iff.rfl
  | cons e l ih => exact (levels_apply_iff e.2.in_downtime (side e.2) _ _).trans ih

end Totals

namespace World

variable {K : Type} [DecidableEq K]

/-- The attached KPIs bring nothing: their acknowledgements, downtimes and impacts add up to 0. -/
structure Weightless (w : World K) (side : ImpactInfo → ImpactValues) : Prop where
  acknowledgement : ∑ k ∈ w.attached, (side (w.report k)).acknowledgement = 0
  downtime : ∑ k ∈ w.attached, (side (w.report k)).downtime = 0
  nominal : ∑ k ∈ w.considered, (side (w.report k)).nominal = 0

variable {w : World K}

/-- The totals are a fold over the KPIs exactly when they are the total of the entries. -/
theorem folded_iff (ht : Tracked w) (side : ImpactInfo → ImpactValues) (t : Totals) :
    Folded w side t ↔
      t.levels = (Totals.total side w.ba.config w.ba.impacts.entries .init).levels := by
  have hfold := folded_of_total ht side rfl
  simp only [Totals.levels, Prod.mk.injEq, hfold.acknowledgement, hfold.downtime, hfold.level]
  constructor
  · intro h
    exact ⟨h.acknowledgement, h.downtime, h.level⟩
  · intro ⟨hack, hdt, hlevel⟩
    exact ⟨hack, hdt, hlevel⟩

theorem weightless_iff {side : ImpactInfo → ImpactValues} {t : Totals}
    (h : Folded w side t) : Weightless w side ↔ t.levels = Totals.init.levels := by
  simp only [Totals.levels, Totals.init, Prod.mk.injEq, h.acknowledgement, h.downtime, h.level]
  constructor
  · intro hw
    refine ⟨hw.acknowledgement, hw.downtime, ?_⟩
    rw [hw.nominal, sub_zero]
  · intro ⟨hack, hdt, hlevel⟩
    refine ⟨hack, hdt, ?_⟩
    linarith

/-- An impact that is added leaves right what was right. -/
theorem Folded.add (ht : Tracked w) {op : BaOp K} (hoff : takesOff w op = false)
    (h : Folded w hard_impact w.ba.hard) :
    Folded (w.step op) hard_impact (w.step op).ba.hard := by
  have hlevels := (folded_iff ht _ _).mp h
  rw [folded_iff (ht.step op)]
  rcases step_cases ht op with ⟨-, hba, -⟩ | ⟨k, -, hk, hstep⟩ | ⟨k, old, i, rfl, hk, hold, -⟩ |
    ⟨k, i, rfl, hk, -⟩
  · rw [hba]
    exact hlevels
  · have herase : (w.ba.impacts.erase k).entries = w.ba.impacts.entries :=
      List.kerase_of_notMem_keys hk
    rw [hstep]
    show _ = (Totals.apply _ _ _ (Totals.total _ _ (w.ba.impacts.erase k).entries _)).levels
    rw [herase]
    exact (Totals.levels_apply_iff _ _ _ _).mpr hlevels
  · have htrue : takesOff w (.child_has_update k i) = true :=
      decide_eq_true ⟨mem_of_lookup hk, fun heq => hold ((ht k old hk).symm.trans heq)⟩
    rw [hoff] at htrue
    cases htrue
  · have htrue : takesOff w (.remove_impact k) = true := decide_eq_true (mem_of_lookup hk)
    rw [hoff] at htrue
    cases htrue

/-- One that is taken off is what starts the totals over, at what they were. -/
theorem Folded.takeOff (hsource : w.ba.config.state_source ≠ .impact)
    (ht : Tracked w) {op : BaOp K} (hoff : takesOff w op = true)
    (h : Folded w hard_impact w.ba.hard) :
    Folded (w.step op) hard_impact (w.step op).ba.hard ↔
      Weightless w hard_impact := by
  rw [folded_iff (ht.step op), weightless_iff h]
  have hunapply : ∀ k i, (unapply_impact k i w.ba).hard =
      .total hard_impact w.ba.config (w.ba.impacts.erase k).entries
        (w.ba.hard.reset w.ba.config) := by
    intro k i
    rw [unapply_impact, if_neg hsource, Entries.filter_ne_eq_erase, applyAll_eq]
  rcases step_cases ht op with ⟨hnot, -, -⟩ | ⟨k, rfl, -, -⟩ | ⟨k, old, i, -, -, -, hstep⟩ |
    ⟨k, i, -, -, hstep⟩
  · rw [hoff] at hnot
    cases hnot
  · cases hoff
  · rw [hstep]
    show (Totals.apply (unapply_impact k old w.ba).config _ _ (unapply_impact k old w.ba).hard).levels =
      (Totals.apply (unapply_impact k old w.ba).config _ _ (Totals.total _
        (unapply_impact k old w.ba).config (w.ba.impacts.erase k).entries _)).levels ↔ _
    rw [(unapply_impact_frame k old w.ba).1, hunapply, Totals.levels_apply_iff,
      Totals.levels_total_iff, Totals.levels_reset]
  · rw [hstep]
    show (unapply_impact k i w.ba).hard.levels = (Totals.total _ (unapply_impact k i w.ba).config
      (w.ba.impacts.erase k).entries _).levels ↔ _
    rw [(unapply_impact_frame k i w.ba).1, hunapply, Totals.levels_total_iff, Totals.levels_reset]

/-- The accumulators are the folds over the KPIs after each call. -/
def Accumulates (c : Config) (report : K → ImpactInfo) (ops : List (BaOp K)) : Prop :=
  ∀ pre, pre <+: ops →
    Folded ((start c report).run pre) hard_impact ((start c report).run pre).ba.hard

/--
**The accumulators of a BA whose state comes from elsewhere.** They are right after each call
exactly when each call that takes an impact off finds KPIs that bring nothing. That is in exact
numbers: sums of doubles may differ in their last digits.
-/
theorem accumulates_iff {c : Config} (hsource : c.state_source ≠ .impact) (report : K → ImpactInfo)
    (ops : List (BaOp K)) :
    Accumulates c report ops ↔ ∀ pre op, pre ++ [op] <+: ops →
      takesOff ((start c report).run pre) op = true →
        Weightless ((start c report).run pre) hard_impact := by
  have hinv := fun pre => @run_invariant K _ c (fun _ => True) report trivial
    (fun _ _ _ _ _ => trivial) pre
  have hconcat : ∀ pre op, (start c report).run (pre ++ [op]) = ((start c report).run pre).step op :=
    fun pre op => List.foldl_concat _ _ _ _
  constructor
  · intro h pre op hpre hoff
    obtain ⟨ht, hc, -⟩ := hinv pre
    have hafter := h (pre ++ [op]) hpre
    rw [hconcat] at hafter
    have hbefore := h pre ((List.prefix_append _ _).trans hpre)
    exact (Folded.takeOff (by rwa [hc]) ht hoff hbefore).mp hafter
  · intro h pre hpre
    induction pre using List.reverseRecOn with
    | nil => exact folded_of_total (Tracked.start c report) _ rfl
    | append_singleton pre op ih =>
      obtain ⟨ht, hc, -⟩ := hinv pre
      have hbefore := ih ((List.prefix_append _ _).trans hpre)
      rw [hconcat]
      cases hoff : takesOff ((start c report).run pre) op with
      | true => exact (Folded.takeOff (by rwa [hc]) ht hoff hbefore).mpr (h pre op hpre hoff)
      | false => exact Folded.add ht hoff hbefore

/-- A KPI that is acknowledged, in some state. -/
def acknowledged (s : State) : ImpactInfo := ⟨⟨10, 0, 0, s⟩, ⟨10, 0, 0, s⟩, false⟩

/-- A KPI that brings nothing changes to one that does, and another one with an impact comes. -/
theorem accumulates_iff_weightless :
    Accumulates ⟨.worst, .dt_ignore, 0, 0, true⟩
      (fun k : Bool => if k then ⟨⟨0, 5, 20, .critical⟩, ⟨0, 5, 20, .critical⟩, true⟩
        else ⟨⟨0, 0, 0, .ok⟩, ⟨0, 0, 0, .ok⟩, false⟩)
      [.add_impact false, .child_has_update false (acknowledged .warning), .add_impact true] := by
  rw [accumulates_iff (by decide)]
  intro pre op hpre hoff
  rcases pre with _ | ⟨x, _ | ⟨y, _ | ⟨z, pre⟩⟩⟩
  · obtain ⟨rfl, -⟩ := List.cons_prefix_cons.mp hpre
    cases hoff
  · obtain ⟨rfl, -⟩ := List.cons_prefix_cons.mp hpre
    exact ⟨by decide +kernel, by decide +kernel, by decide +kernel⟩
  · simp only [List.cons_append, List.nil_append, List.cons_prefix_cons] at hpre
    obtain ⟨rfl, rfl, rfl, -⟩ := hpre
    cases hoff
  · exact absurd hpre.length_le (by simp)

/-- An acknowledged KPI that becomes critical is counted twice. -/
theorem not_accumulates : ¬ ∀ (c : Config) (report : Unit → ImpactInfo) (ops : List (BaOp Unit)),
    c.state_source ≠ .impact → Accumulates c report ops := by
  intro h
  have hfold := h ⟨.worst, .dt_ignore, 0, 0, true⟩ (fun _ => acknowledged .warning)
    [.add_impact (), .child_has_update () (acknowledged .critical)] (by decide) _ (List.prefix_refl _)
  have hack := hfold.acknowledgement
  revert hack
  decide +kernel

end World

end CentreonBroker.Bam
