import CentreonBroker.Bam.MetaService

/-!
# The value of a meta-service

The value is the aggregate that the metrics had at the last update that changed one of them. An
update that changes nothing publishes it as it is.
-/

namespace CentreonBroker.Bam.Visit

open MetaService (values)

/-- What a type of computation means. -/
def aggregate (c : Computation) (l : List ℚ) : Option ℚ :=
  match c with
  | .min => l.min?
  | .max => l.max?
  | .sum => some l.sum
  | .average => if l = [] then none else some (l.sum / l.length)

/-! ## Recomputing -/

theorem scan_min (l : List ℚ) : scan (fun v value => v < value) l = l.min? := by
  cases l with
  | nil => rfl
  | cons v vs =>
    have hmin : (fun value v : ℚ => if (decide (v < value)) = true then v else value) = min := by
      funext value v
      rcases lt_or_ge v value with h | h
      · simp [h, min_eq_right h.le]
      · simp [not_lt.mpr h, min_eq_left h]
    show some (vs.foldl _ v) = some (vs.foldl min v)
    rw [hmin]

theorem scan_max (l : List ℚ) : scan (fun v value => v > value) l = l.max? := by
  cases l with
  | nil => rfl
  | cons v vs =>
    have hmax : (fun value v : ℚ => if (decide (v > value)) = true then v else value) = max := by
      funext value v
      rcases lt_or_ge value v with h | h
      · simp [h, max_eq_right h.le]
      · simp [not_lt.mpr h, max_eq_left h]
    show some (vs.foldl _ v) = some (vs.foldl max v)
    rw [hmax]

theorem computed_eq (c : Computation) (l : List ℚ) : MetaService.computed c l = aggregate c l := by
  have hsum : l.foldl (· + ·) 0 = l.sum := List.sum_eq_foldl.symm
  cases c with
  | average =>
    simp only [MetaService.computed, aggregate, hsum, List.length_eq_zero_iff]
  | min => exact scan_min l
  | max => exact scan_max l
  | sum =>
    simp only [MetaService.computed, aggregate, hsum]

theorem aggregate_perm (c : Computation) {l l' : List ℚ} (h : l.Perm l') :
    aggregate c l = aggregate c l' := by
  cases c with
  | average =>
    have hnil : l = [] ↔ l' = [] := by
      rw [← List.length_eq_zero_iff, h.length_eq, List.length_eq_zero_iff]
    simp only [aggregate, hnil, h.sum_eq, h.length_eq]
  | min =>
    refine Option.ext fun a => ?_
    simp only [aggregate, List.min?_eq_some_iff, h.mem_iff]
  | max =>
    refine Option.ext fun a => ?_
    simp only [aggregate, List.max?_eq_some_iff, h.mem_iff]
  | sum => simp only [aggregate, h.sum_eq]

/-! ## One value that changes -/

section Partial

variable {α : Type} [LinearOrder α] {old new v : α} {rest : List α}

theorem min_replace_of_le (h : (old :: rest).min? = some v) (hle : new ≤ v) :
    (new :: rest).min? = some new := by
  rw [List.min?_eq_some_iff] at h ⊢
  refine ⟨List.mem_cons_self, ?_⟩
  intro b hb
  rcases List.mem_cons.mp hb with rfl | hb
  · exact le_refl b
  · exact hle.trans (h.2 b (List.mem_cons_of_mem _ hb))

/-- The least value stays as it is, unless it is the one that changes. -/
theorem min_replace_of_ne (h : (old :: rest).min? = some v) (hlt : v ≤ new) (hne : v ≠ old) :
    (new :: rest).min? = some v := by
  rw [List.min?_eq_some_iff] at h ⊢
  have hrest := (List.mem_cons.mp h.1).resolve_left hne
  refine ⟨List.mem_cons_of_mem _ hrest, ?_⟩
  intro b hb
  rcases List.mem_cons.mp hb with rfl | hb
  · exact hlt
  · exact h.2 b (List.mem_cons_of_mem _ hb)

theorem max_replace_of_le (h : (old :: rest).max? = some v) (hle : v ≤ new) :
    (new :: rest).max? = some new :=
  min_replace_of_le (α := αᵒᵈ) h hle

theorem max_replace_of_ne (h : (old :: rest).max? = some v) (hlt : new ≤ v) (hne : v ≠ old) :
    (new :: rest).max? = some v :=
  min_replace_of_ne (α := αᵒᵈ) h hlt hne

end Partial

namespace MetaService

/-- The value of one metric, and the values of the others. -/
theorem values_perm {metrics : AList fun _ : ℕ => ℚ} {metric_id : ℕ} {v : ℚ}
    (h : metrics.lookup metric_id = some v) :
    (values metrics).Perm (v :: values (metrics.erase metric_id)) :=
  (Entries.perm_of_lookup h).map fun e : Sigma fun _ : ℕ => ℚ => e.2

/-- **A partial recomputation is a recomputation**, where the value was right. -/
theorem recomputePartial_value {m : MetaService} {metrics : AList fun _ : ℕ => ℚ} {metric_id : ℕ}
    {value old_value : ℚ} (hmetrics : m.metrics = metrics.insert metric_id value)
    (hlookup : metrics.lookup metric_id = some old_value)
    (hvalue : m.value = aggregate m.computation (values metrics)) :
    (m.recomputePartial value old_value).value = aggregate m.computation (values m.metrics) := by
  have hold := values_perm hlookup
  have hnew : values m.metrics = value :: values (metrics.erase metric_id) := by
    rw [hmetrics]
    rfl
  have hrecompute : m.recompute.value = aggregate m.computation (values m.metrics) :=
    computed_eq m.computation (values m.metrics)
  rw [aggregate_perm _ hold] at hvalue
  unfold recomputePartial
  cases hc : m.computation with
  | min =>
    simp only [hc] at hrecompute hvalue
    rw [show aggregate .min _ = List.min? _ from rfl] at hvalue hrecompute ⊢
    obtain ⟨v, hv⟩ : ∃ v, m.value = some v := by
      rw [hvalue]
      exact ⟨_, List.min?_cons'⟩
    rw [hv] at hvalue ⊢
    dsimp only
    split
    · rename_i hle
      rw [hnew, min_replace_of_le hvalue.symm (of_decide_eq_true hle)]
    · rename_i hle
      split
      · exact hrecompute
      · rename_i hne
        have hlt : v ≤ value := by
          simp only [Option.any_some, decide_eq_true_eq] at hle
          linarith
        rw [hnew, min_replace_of_ne hvalue.symm hlt (fun heq => hne (congrArg some heq)), hv]
  | max =>
    simp only [hc] at hrecompute hvalue
    rw [show aggregate .max _ = List.max? _ from rfl] at hvalue hrecompute ⊢
    obtain ⟨v, hv⟩ : ∃ v, m.value = some v := by
      rw [hvalue]
      exact ⟨_, List.max?_cons'⟩
    rw [hv] at hvalue ⊢
    dsimp only
    split
    · rename_i hle
      rw [hnew, max_replace_of_le hvalue.symm (of_decide_eq_true hle)]
    · rename_i hle
      split
      · exact hrecompute
      · rename_i hne
        have hlt : value ≤ v := by
          simp only [Option.any_some, decide_eq_true_eq] at hle
          linarith
        rw [hnew, max_replace_of_ne hvalue.symm hlt (fun heq => hne (congrArg some heq)), hv]
  | sum =>
    rw [hc] at hvalue
    show m.value.map _ = some (values m.metrics).sum
    rw [hvalue, hnew]
    show some _ = some _
    rw [List.sum_cons, List.sum_cons]
    congr 1
    ring
  | average =>
    rw [hc] at hvalue
    show m.value.map (fun v => v + (value - old_value) / (values m.metrics).length) = _
    rw [hvalue, hnew]
    simp only [aggregate, if_neg (List.cons_ne_nil _ _), Option.map_some, List.sum_cons,
      List.length_cons, Option.some.injEq]
    ring

/-! ## What a call does -/

theorem sameConfig_recomputePartial (new_value old_value : ℚ) (m : MetaService) :
    SameConfig m (m.recomputePartial new_value old_value) ∧
      (m.recomputePartial new_value old_value).metrics = m.metrics ∧
      (m.recomputePartial new_value old_value).out = m.out ∧
      (m.recomputePartial new_value old_value).recompute_count ≤ m.recompute_count := by
  have hrecompute : SameConfig m m.recompute ∧ m.recompute.metrics = m.metrics ∧
      m.recompute.out = m.out ∧ m.recompute.recompute_count ≤ m.recompute_count :=
    ⟨⟨rfl, rfl, rfl⟩, rfl, rfl, Nat.zero_le _⟩
  unfold recomputePartial
  split
  · split
    · exact ⟨⟨rfl, rfl, rfl⟩, rfl, rfl, le_refl _⟩
    · split
      · exact hrecompute
      · exact ⟨.refl m, rfl, rfl, le_refl _⟩
  · split
    · exact ⟨⟨rfl, rfl, rfl⟩, rfl, rfl, le_refl _⟩
    · split
      · exact hrecompute
      · exact ⟨.refl m, rfl, rfl, le_refl _⟩
  · exact ⟨⟨rfl, rfl, rfl⟩, rfl, rfl, le_refl _⟩
  · exact ⟨⟨rfl, rfl, rfl⟩, rfl, rfl, le_refl _⟩

/-- A metric that changes leaves the value right, where it was right or is to be recomputed. -/
theorem setMetric_spec {m : MetaService} {metric_id : ℕ} {value old_value : ℚ}
    (hlookup : m.metrics.lookup metric_id = some old_value)
    (hvalue : m.recompute_count < recompute_limit →
      m.value = aggregate m.computation (values m.metrics)) :
    SameConfig m (m.setMetric metric_id value old_value) ∧
      (m.setMetric metric_id value old_value).metrics = m.metrics.insert metric_id value ∧
      (m.setMetric metric_id value old_value).out = m.out ∧
      (m.setMetric metric_id value old_value).recompute_count < recompute_limit ∧
      (m.setMetric metric_id value old_value).value =
        aggregate m.computation (values (m.metrics.insert metric_id value)) := by
  unfold setMetric
  dsimp only
  split
  · exact ⟨⟨rfl, rfl, rfl⟩, rfl, rfl, Nat.zero_lt_succ 99, computed_eq _ _⟩
  · rename_i hcount
    have hbefore : m.recompute_count < recompute_limit := by omega
    obtain ⟨hconfig, hmetrics, hout, hle⟩ := sameConfig_recomputePartial value old_value
      { m with metrics := m.metrics.insert metric_id value, recompute_count := m.recompute_count + 1 }
    refine ⟨⟨hconfig.computation, hconfig.level_critical, hconfig.level_warning⟩, hmetrics, hout, ?_, ?_⟩
    · have hle : _ ≤ m.recompute_count + 1 := hle
      omega
    · exact recomputePartial_value rfl hlookup (hvalue hbefore)

end MetaService

/-- An output shows a value. -/
def MetaOutput.Shows (fmt : Option ℚ → String) (level_critical level_warning : ℚ) (value : Option ℚ) :
    MetaOutput → Prop
  | .meta_service_status _ v _ => v = value
  | .service_status s =>
    s.current_state = MetaService.stateOf level_critical level_warning value ∧
      s.perf_data = MetaService.perfdataOf fmt level_critical level_warning value

namespace MetaService

/-- What an update of an attached metric does. -/
theorem metric_update_spec (fmt : Option ℚ → String) {m : MetaService} {metric_id : ℕ}
    {value old_value : ℚ} (now : ℤ) (hlookup : m.metrics.lookup metric_id = some old_value)
    (hvalue : m.recompute_count < recompute_limit →
      m.value = aggregate m.computation (values m.metrics)) :
    ∃ m₁ new, Writes m₁ (m.metric_update fmt metric_id value now) new now ∧ SameConfig m m₁ ∧
      m₁.out = m.out ∧
      (∀ o ∈ new, o.Shows fmt m.level_critical m.level_warning m₁.value) ∧
      (old_value = value → m₁ = m) ∧
      (old_value ≠ value → m₁.metrics = m.metrics.insert metric_id value ∧
        m₁.recompute_count < recompute_limit ∧
        m₁.value = aggregate m.computation (values (m.metrics.insert metric_id value))) := by
  unfold metric_update
  rw [hlookup]
  dsimp only
  by_cases hsame : old_value = value
  · -- nothing is computed
    rw [if_neg (not_not.mpr hsame)]
    obtain ⟨new, hwrites, hnew⟩ := writes_send_service_status fmt now false m
    refine ⟨m, new, hwrites, .refl m, rfl, ?_, fun _ => rfl, fun hne => absurd hsame hne⟩
    intro o ho
    rw [hnew o ho]
    exact ⟨rfl, rfl⟩
  · rw [if_pos hsame]
    obtain ⟨hconfig, hmetrics, hout, hcount, haggregate⟩ :=
      @setMetric_spec m metric_id value old_value hlookup hvalue
    have hvisit := writes_visit now hcount
    obtain ⟨new, hsend, hnew⟩ := writes_send_service_status fmt now
      ((m.setMetric metric_id value old_value).visit now).1
      ((m.setMetric metric_id value old_value).visit now).2
    refine ⟨_, _, hvisit.trans hsend, hconfig, hout, ?_, fun heq => absurd heq hsame,
      fun _ => ⟨hmetrics, hcount, haggregate⟩⟩
    intro o ho
    rcases List.mem_append.mp ho with ho | ho
    · rw [List.mem_singleton.mp ho]
      exact rfl
    · rw [hnew o ho]
      constructor
      · show stateOf _ _ _ = _
        rw [hvisit.config.level_critical, hvisit.config.level_warning, hconfig.level_critical,
          hconfig.level_warning, hvisit.value]
      · show perfdataOf _ _ _ _ = _
        rw [hvisit.config.level_critical, hvisit.config.level_warning, hconfig.level_critical,
          hconfig.level_warning, hvisit.value]

/-! ## Runs -/

/-- The metrics after some calls, and those after the last update that changed one. -/
structure Attached where
  metrics : AList fun _ : ℕ => ℚ
  settled : Option (AList fun _ : ℕ => ℚ)

namespace Attached

def step (a : Attached) : MetaOp → Attached
  | .add_metric metric_id => { a with metrics := a.metrics.insert metric_id 0 }
  | .remove_metric metric_id => { a with metrics := a.metrics.erase metric_id }
  | .metric_update metric_id value _ =>
    match a.metrics.lookup metric_id with
    | none => a
    | some old_value =>
      if old_value = value then a
      else ⟨a.metrics.insert metric_id value, some (a.metrics.insert metric_id value)⟩

section

variable {a : Attached} {metric_id : ℕ} {value old_value : ℚ} (now : ℤ)

theorem step_unattached (h : a.metrics.lookup metric_id = none) :
    a.step (.metric_update metric_id value now) = a := by
  simp only [step, h]

theorem step_same (h : a.metrics.lookup metric_id = some value) :
    a.step (.metric_update metric_id value now) = a := by
  simp only [step, h, if_true]

theorem step_change (h : a.metrics.lookup metric_id = some old_value) (hne : old_value ≠ value) :
    a.step (.metric_update metric_id value now) =
      ⟨a.metrics.insert metric_id value, some (a.metrics.insert metric_id value)⟩ := by
  simp only [step, h, hne, if_false]

end

def after (ops : List MetaOp) : Attached := ops.foldl step ⟨∅, none⟩

/-- What the metrics aggregated to at the last change. There is no value before it. -/
def value (c : Computation) (a : Attached) : Option ℚ :=
  a.settled.bind fun metrics => aggregate c (values metrics)

end Attached

/-- The value is the one of the last change, and no other where nothing is to be recomputed. -/
structure Kept (c : Computation) (level_critical level_warning : ℚ) (a : Attached) (m : MetaService) :
    Prop where
  computation : m.computation = c
  level_critical : m.level_critical = level_critical
  level_warning : m.level_warning = level_warning
  metrics : m.metrics = a.metrics
  value : m.value = a.value c
  settled : m.recompute_count < recompute_limit → a.settled = some a.metrics

section Kept

variable {fmt : Option ℚ → String} {c : Computation} {level_critical level_warning : ℚ} {a : Attached}
  {m : MetaService}

theorem Kept.init (c : Computation) (id host_id service_id : ℕ) (level_critical level_warning : ℚ) :
    Kept c level_critical level_warning ⟨∅, none⟩
      (init c id host_id service_id level_critical level_warning) :=
  ⟨rfl, rfl, rfl, rfl, rfl, fun h => absurd h (lt_irrefl _)⟩

theorem Kept.aggregate (h : Kept c level_critical level_warning a m)
    (hcount : m.recompute_count < recompute_limit) :
    m.value = aggregate m.computation (values m.metrics) := by
  rw [h.value, Attached.value, h.settled hcount, h.computation, h.metrics]
  rfl

theorem Kept.step (h : Kept c level_critical level_warning a m) (op : MetaOp) :
    Kept c level_critical level_warning (a.step op) (m.step fmt op) := by
  cases op with
  | add_metric metric_id =>
    refine ⟨h.computation, h.level_critical, h.level_warning, ?_, h.value, fun hlt => absurd hlt (lt_irrefl _)⟩
    exact congrArg (AList.insert metric_id 0) h.metrics
  | remove_metric metric_id =>
    refine ⟨h.computation, h.level_critical, h.level_warning, ?_, h.value, fun hlt => absurd hlt (lt_irrefl _)⟩
    exact congrArg (AList.erase metric_id) h.metrics
  | metric_update metric_id value now =>
    show Kept _ _ _ _ (m.metric_update fmt metric_id value now)
    cases hlookup : m.metrics.lookup metric_id with
    | none =>
      have hnone : m.metric_update fmt metric_id value now = m := by
        unfold metric_update
        rw [hlookup]
      rw [hnone, Attached.step_unattached now (by rw [← h.metrics, hlookup])]
      exact h
    | some old_value =>
      obtain ⟨m₁, new, hwrites, hconfig, -, -, hsame, hchange⟩ :=
        @metric_update_spec fmt m metric_id value old_value now hlookup h.aggregate
      have hcomputation := (hconfig.trans hwrites.config).computation.trans h.computation
      have hcritical := (hconfig.trans hwrites.config).level_critical.trans h.level_critical
      have hwarning := (hconfig.trans hwrites.config).level_warning.trans h.level_warning
      by_cases heq : old_value = value
      · obtain rfl := hsame heq
        rw [Attached.step_same now (by rw [← h.metrics, hlookup, heq])]
        refine ⟨hcomputation, hcritical, hwarning, hwrites.metrics.trans h.metrics,
          hwrites.value.trans h.value, ?_⟩
        rw [hwrites.recompute_count]
        exact h.settled
      · obtain ⟨hmetrics, -, hvalue⟩ := hchange heq
        rw [Attached.step_change now (by rw [← h.metrics, hlookup]) heq, ← h.metrics]
        refine ⟨hcomputation, hcritical, hwarning, hwrites.metrics.trans hmetrics, ?_, fun _ => rfl⟩
        rw [hwrites.value, hvalue, h.computation]
        rfl

end Kept

theorem kept_run (fmt : Option ℚ → String) (c : Computation) (id host_id service_id : ℕ)
    (level_critical level_warning : ℚ) (ops : List MetaOp) :
    Kept c level_critical level_warning (.after ops)
      ((init c id host_id service_id level_critical level_warning).run fmt ops) := by
  induction ops using List.reverseRecOn with
  | nil => exact .init c id host_id service_id level_critical level_warning
  | append_singleton ops op ih =>
    rw [MetaService.run, List.foldl_concat, Attached.after, List.foldl_concat]
    exact ih.step op

/-- After an update the value is the aggregate of what is attached, and so is all that it wrote. -/
structure Aggregated (fmt : Option ℚ → String) (m m' : MetaService) : Prop where
  value : m'.value = aggregate m'.computation (values m'.metrics)
  out : ∀ o ∈ m'.out.drop m.out.length, o.2.Shows fmt m.level_critical m.level_warning
    (aggregate m'.computation (values m'.metrics))

/-- Every update of an attached metric leaves an aggregate. -/
def AlwaysAggregated (fmt : Option ℚ → String) (m : MetaService) (ops : List MetaOp) : Prop :=
  ∀ pre metric_id value now, pre ++ [.metric_update metric_id value now] <+: ops →
    metric_id ∈ (m.run fmt pre).metrics →
      Aggregated fmt (m.run fmt pre) (m.run fmt (pre ++ [.metric_update metric_id value now]))

theorem aggregated_step_iff (fmt : Option ℚ → String) {c : Computation} {level_critical level_warning : ℚ}
    {a : Attached} {m : MetaService} (h : Kept c level_critical level_warning a m) {metric_id : ℕ}
    {old_value : ℚ} (value : ℚ) (now : ℤ) (hlookup : m.metrics.lookup metric_id = some old_value) :
    Aggregated fmt m (m.step fmt (.metric_update metric_id value now)) ↔
      (old_value = value → a.value c = aggregate c (values a.metrics)) := by
  obtain ⟨m₁, new, hwrites, hconfig, hout, hnew, hsame, hchange⟩ :=
    @metric_update_spec fmt m metric_id value old_value now hlookup h.aggregate
  have hcomputation := (hconfig.trans hwrites.config).computation.trans h.computation
  have hdrop : (m.metric_update fmt metric_id value now).out.drop m.out.length = new.map (now, ·) := by
    rw [hwrites.out, hout, List.drop_left]
  -- the value decides: what is written is made from it
  have hvalue : Aggregated fmt m (m.step fmt (.metric_update metric_id value now)) ↔
      m₁.value = aggregate c (values m₁.metrics) := by
    constructor
    · intro hagg
      have hagg := hagg.value
      rwa [show m.step fmt _ = m.metric_update fmt metric_id value now from rfl, hwrites.value,
        hwrites.metrics, hcomputation] at hagg
    · intro hagg
      constructor
      · show (m.metric_update fmt metric_id value now).value = _
        rwa [show m.step fmt _ = m.metric_update fmt metric_id value now from rfl, hwrites.value,
          hwrites.metrics, hcomputation]
      · show ∀ o ∈ (m.metric_update fmt metric_id value now).out.drop _, _
        rw [hdrop, show m.step fmt _ = m.metric_update fmt metric_id value now from rfl,
          hwrites.metrics, hcomputation, ← hagg]
        intro o ho
        obtain ⟨o', ho', rfl⟩ := List.mem_map.mp ho
        exact hnew o' ho'
  rw [hvalue]
  by_cases heq : old_value = value
  · obtain rfl := hsame heq
    rw [h.value, h.metrics]
    simp [heq]
  · obtain ⟨hmetrics, -, hagg⟩ := hchange heq
    rw [hmetrics, hagg, h.computation]
    simp [heq]

/--
**The value of a meta-service is the aggregate of its metrics** exactly as long as each update that
repeats the value of its metric finds the metrics with the aggregate that they had at the last
update that changed one.
-/
theorem aggregated_iff (fmt : Option ℚ → String) (c : Computation) (id host_id service_id : ℕ)
    (level_critical level_warning : ℚ) (ops : List MetaOp) :
    AlwaysAggregated fmt (init c id host_id service_id level_critical level_warning) ops ↔
      ∀ pre metric_id value now, pre ++ [.metric_update metric_id value now] <+: ops →
        (Attached.after pre).metrics.lookup metric_id = some value →
          (Attached.after pre).value c = aggregate c (values (Attached.after pre).metrics) := by
  generalize hm : init c id host_id service_id level_critical level_warning = m
  have hkept : ∀ pre, Kept c level_critical level_warning (.after pre) (m.run fmt pre) := by
    rw [← hm]
    exact kept_run fmt c id host_id service_id level_critical level_warning
  have hconcat : ∀ pre op, m.run fmt (pre ++ [op]) = (m.run fmt pre).step fmt op :=
    fun pre op => List.foldl_concat _ _ _ _
  constructor
  · intro h pre metric_id value now hpre hlookup
    rw [← (hkept pre).metrics] at hlookup
    have hagg := h pre metric_id value now hpre (AList.lookup_isSome.mp (by rw [hlookup]; rfl))
    rw [hconcat] at hagg
    exact (aggregated_step_iff fmt (hkept pre) value now hlookup).mp hagg rfl
  · intro h pre metric_id value now hpre hmem
    obtain ⟨old_value, hlookup⟩ := Option.isSome_iff_exists.mp (AList.lookup_isSome.mpr hmem)
    rw [hconcat, aggregated_step_iff fmt (hkept pre) value now hlookup]
    intro heq
    rw [heq, (hkept pre).metrics] at hlookup
    exact h pre metric_id value now hpre hlookup

/-- A new metric is 0: there is no value yet, and an update to 0 does not compute it. -/
theorem not_alwaysAggregated : ¬ ∀ (fmt : Option ℚ → String) (c : Computation) (ops : List MetaOp),
    AlwaysAggregated fmt (init c 1 1 1 10 5) ops := by
  intro h
  have hvalue := (h (fun _ => "") .sum [.add_metric 1, .metric_update 1 0 100] [.add_metric 1] 1 0 100
    (List.prefix_refl _) (by decide)).value
  revert hvalue
  decide +kernel

end MetaService

end CentreonBroker.Bam.Visit
