import CentreonBroker.Bam.MetaAggregate

/-!
# When a meta-service writes a status

The status of a meta-service is written with each change of its value, and the one of its virtual
service with each change of the state and for the first update. It is also to be written once a
minute; but the time since the last one is computed the other way around, and is not positive as
long as the clock does not go back.
-/

namespace CentreonBroker.Bam.Visit

/-- The times of the updates. -/
def updateTimes (ops : List MetaOp) : List ℤ :=
  ops.filterMap fun
    | .metric_update _ _ now => some now
    | _ => none

theorem updateTimes_concat (ops : List MetaOp) (metric_id : ℕ) (value : ℚ) (now : ℤ) :
    updateTimes (ops ++ [.metric_update metric_id value now]) = updateTimes ops ++ [now] :=
  List.filterMap_append

namespace MetaService

variable {fmt : Option ℚ → String} {m : MetaService} {metric_id : ℕ} {value old_value : ℚ} {now : ℤ}

/-- The time of the last status event of either kind. -/
def lastStatus (m : MetaService) : Option ℤ := m.out.getLast?.map Prod.fst

/-- What an update of an attached metric is to write. -/
structure Refreshed (m m' : MetaService) (now : ℤ) : Prop where
  first : m.out = [] → m'.out ≠ m.out
  change : m'.value ≠ m.value ∨ m'.get_state ≠ m.get_state → m'.out ≠ m.out
  minute : ∀ t, m.lastStatus = some t → 60 ≤ now - t → m'.out ≠ m.out

/-- The time that the last status of the service was sent at: none yet, or the one of some update. -/
structure Sent (times : List ℤ) (m : MetaService) : Prop where
  null : m.out = [] → is_null m.last_service_status_sent
  time : m.last_service_status_sent = -1 ∨ m.last_service_status_sent ∈ times

theorem Sent.init (c : Computation) (id host_id service_id : ℕ) (level_critical level_warning : ℚ) :
    Sent [] (init c id host_id service_id level_critical level_warning) := ⟨fun _ => rfl, .inl rfl⟩

theorem sent_send_service_status (state_has_changed : Bool) {times : List ℤ} (h : Sent times m) :
    Sent (times ++ [now]) (m.send_service_status fmt now state_has_changed) := by
  unfold send_service_status
  split
  · refine ⟨fun hout => ?_, .inr (List.mem_append_right _ (List.mem_singleton_self _))⟩
    exact absurd hout (List.append_ne_nil_of_right_ne_nil _ (List.cons_ne_nil _ _))
  · exact ⟨h.null, h.time.imp_right (List.mem_append_left _)⟩

theorem last_recomputePartial (new_value old_value : ℚ) (m : MetaService) :
    (m.recomputePartial new_value old_value).last_service_status_sent = m.last_service_status_sent := by
  unfold recomputePartial
  split
  · split
    · rfl
    · split <;> rfl
  · split
    · rfl
    · split <;> rfl
  · rfl
  · rfl

theorem last_setMetric (metric_id : ℕ) (value old_value : ℚ) (m : MetaService) :
    (m.setMetric metric_id value old_value).last_service_status_sent = m.last_service_status_sent := by
  unfold setMetric
  dsimp only
  split
  · rfl
  · exact last_recomputePartial value old_value _

theorem last_visit (now : ℤ) (m : MetaService) :
    (m.visit now).2.last_service_status_sent = m.last_service_status_sent ∧ (m.visit now).2.out ≠ [] := by
  unfold visit
  dsimp only
  have hout : ∀ (l : List (ℤ × MetaOutput)) o, l ++ [o] ≠ [] := fun l o =>
    List.append_ne_nil_of_right_ne_nil _ (List.cons_ne_nil _ _)
  split
  · exact ⟨rfl, hout _ _⟩
  · exact ⟨rfl, hout _ _⟩

theorem Sent.step {times : List ℤ} (h : Sent times m) (hlookup : m.metrics.lookup metric_id = some old_value) :
    Sent (times ++ [now]) (m.metric_update fmt metric_id value now) := by
  unfold metric_update
  rw [hlookup]
  dsimp only
  split
  · obtain ⟨hlast, hout⟩ := last_visit now (m.setMetric metric_id value old_value)
    refine sent_send_service_status _ ⟨fun hnil => absurd hnil hout, ?_⟩
    rw [hlast, last_setMetric]
    exact h.time
  · exact sent_send_service_status _ h

theorem Sent.run (fmt : Option ℚ → String) (m : MetaService) (h : Sent [] m) (ops : List MetaOp) :
    Sent (updateTimes ops) (m.run fmt ops) := by
  induction ops using List.reverseRecOn with
  | nil => exact h
  | append_singleton ops op ih =>
    rw [MetaService.run, List.foldl_concat]
    cases op with
    | add_metric metric_id | remove_metric metric_id =>
      rw [updateTimes, List.filterMap_append]
      exact ⟨ih.null, ih.time.imp_right (List.mem_append_left _)⟩
    | metric_update metric_id value now =>
      rw [updateTimes_concat]
      show Sent _ ((m.run fmt ops).metric_update fmt metric_id value now)
      cases hlookup : (m.run fmt ops).metrics.lookup metric_id with
      | none =>
        have hnone : (m.run fmt ops).metric_update fmt metric_id value now = m.run fmt ops := by
          unfold metric_update
          rw [hlookup]
        rw [hnone]
        exact ⟨ih.null, ih.time.imp_right (List.mem_append_left _)⟩
      | some old_value => exact ih.step hlookup

/-- A change is always written. -/
theorem refreshed_of_change (hlookup : m.metrics.lookup metric_id = some old_value)
    (hne : old_value ≠ value) : Refreshed m (m.metric_update fmt metric_id value now) now := by
  have hout : (m.metric_update fmt metric_id value now).out ≠ m.out := by
    unfold metric_update
    rw [hlookup]
    dsimp only
    rw [if_pos hne]
    obtain ⟨new, hwrites, -⟩ := writes_send_service_status fmt now
      ((m.setMetric metric_id value old_value).visit now).1
      ((m.setMetric metric_id value old_value).visit now).2
    have hset : (m.setMetric metric_id value old_value).out = m.out := by
      unfold setMetric
      dsimp only
      split
      · rfl
      · exact (sameConfig_recomputePartial value old_value _).2.2.1
    have hvisit : ∃ o, ((m.setMetric metric_id value old_value).visit now).2.out = m.out ++ [o] := by
      rw [← hset]
      unfold visit
      dsimp only
      split
      · exact ⟨_, rfl⟩
      · exact ⟨_, rfl⟩
    obtain ⟨o, ho⟩ := hvisit
    rw [hwrites.out, ho, List.append_assoc]
    intro heq
    have hnil := List.append_right_eq_self.mp heq
    cases hnil
  exact ⟨fun _ => hout, fun _ => hout, fun _ _ _ => hout⟩

/-- An update that repeats the value is silent, but for the first one. -/
theorem refreshed_iff_of_same {times : List ℤ} (h : Sent times m) (hle : ∀ t ∈ times, t ≤ now)
    (hlookup : m.metrics.lookup metric_id = some value) :
    Refreshed m (m.metric_update fmt metric_id value now) now ↔
      (is_null m.last_service_status_sent = false → ∀ t, m.lastStatus = some t → now - t < 60) := by
  have hsame : m.metric_update fmt metric_id value now = m.send_service_status fmt now false := by
    simp only [metric_update, hlookup, ne_eq, not_true_eq_false, if_false]
  rw [hsame]
  cases hnull : is_null m.last_service_status_sent with
  | true =>
    have hout : (m.send_service_status fmt now false).out ≠ m.out := by
      unfold send_service_status
      rw [if_pos (.inr (.inl hnull))]
      intro heq
      have hnil := List.append_right_eq_self.mp heq
      cases hnil
    exact ⟨fun _ hf => absurd hf (by decide), fun _ => ⟨fun _ => hout, fun _ => hout, fun _ _ _ => hout⟩⟩
  | false =>
    -- the time of the last status is in the past, so the difference is not positive
    have hpast : m.last_service_status_sent ≤ now := by
      rcases h.time with htime | htime
      · rw [htime] at hnull
        cases hnull
      · exact hle _ htime
    have hsilent : m.send_service_status fmt now false = m := by
      unfold send_service_status
      rw [if_neg]
      rintro (hf | hf | hf)
      · cases hf
      · rw [hnull] at hf
        cases hf
      · omega
    rw [hsilent]
    constructor
    · intro hrefreshed _ t ht
      by_contra hlong
      exact hrefreshed.minute t ht (by omega) rfl
    · intro hshort
      refine ⟨?_, ?_, ?_⟩
      · intro hnil
        have hf := h.null hnil
        rw [hnull] at hf
        cases hf
      · rintro (hf | hf)
        · exact absurd rfl hf
        · exact absurd rfl hf
      · intro t ht hlong
        have hlt := hshort rfl t ht
        omega

/-- Every update of an attached metric writes what it is to write. -/
def AlwaysRefreshed (fmt : Option ℚ → String) (m : MetaService) (ops : List MetaOp) : Prop :=
  ∀ pre metric_id value now, pre ++ [.metric_update metric_id value now] <+: ops →
    metric_id ∈ (m.run fmt pre).metrics →
      Refreshed (m.run fmt pre) (m.run fmt (pre ++ [.metric_update metric_id value now])) now

/--
**The status of a meta-service is refreshed** exactly as long as no update that repeats the value of
its metric comes a minute after the last status.
-/
theorem refreshed_iff (fmt : Option ℚ → String) (c : Computation) (id host_id service_id : ℕ)
    (level_critical level_warning : ℚ) (ops : List MetaOp)
    (htimes : (updateTimes ops).Pairwise (· ≤ ·)) :
    AlwaysRefreshed fmt (init c id host_id service_id level_critical level_warning) ops ↔
      ∀ pre metric_id value now, pre ++ [.metric_update metric_id value now] <+: ops →
        let m := (init c id host_id service_id level_critical level_warning).run fmt pre
        m.metrics.lookup metric_id = some value → is_null m.last_service_status_sent = false →
          ∀ t, m.lastStatus = some t → now - t < 60 := by
  have hsent := Sent.run fmt _ (Sent.init c id host_id service_id level_critical level_warning)
  generalize init c id host_id service_id level_critical level_warning = m at hsent ⊢
  have hconcat : ∀ pre op, m.run fmt (pre ++ [op]) = (m.run fmt pre).step fmt op :=
    fun pre op => List.foldl_concat _ _ _ _
  have hle : ∀ pre metric_id value now, pre ++ [.metric_update metric_id value now] <+: ops →
      ∀ t ∈ updateTimes pre, t ≤ now := by
    intro pre metric_id value now hpre t ht
    obtain ⟨post, rfl⟩ := hpre
    rw [updateTimes, List.filterMap_append, ← updateTimes, updateTimes_concat] at htimes
    have hprefix := (List.pairwise_append.mp htimes).1
    exact (List.pairwise_append.mp hprefix).2.2 t ht now (List.mem_singleton_self _)
  constructor
  · intro h pre metric_id value now hpre m' hlookup
    have hrefreshed := h pre metric_id value now hpre (AList.lookup_isSome.mp (by rw [hlookup]; rfl))
    rw [hconcat] at hrefreshed
    exact (refreshed_iff_of_same (hsent pre) (hle pre metric_id value now hpre) hlookup).mp hrefreshed
  · intro h pre metric_id value now hpre hmem
    obtain ⟨old_value, hlookup⟩ := Option.isSome_iff_exists.mp (AList.lookup_isSome.mpr hmem)
    rw [hconcat]
    by_cases heq : old_value = value
    · rw [heq] at hlookup
      exact (refreshed_iff_of_same (hsent pre) (hle pre metric_id value now hpre) hlookup).mpr
        (h pre metric_id value now hpre hlookup)
    · exact refreshed_of_change hlookup heq

/-- A metric that has the same value after some seconds, and another one later. -/
theorem refreshed_iff_soon : AlwaysRefreshed (fun _ => "") (init .sum 1 1 1 10 5)
    [.add_metric 1, .metric_update 1 2 1000, .metric_update 1 2 1010, .metric_update 1 3 1090] := by
  refine (refreshed_iff _ _ _ _ _ _ _ _ (by decide)).mpr ?_
  intro pre metric_id value now hpre
  obtain ⟨post, hops⟩ := hpre
  rcases pre with _ | ⟨op, _ | ⟨op₁, _ | ⟨op₂, _ | ⟨op₃, pre⟩⟩⟩⟩
  · simp at hops
  · simp at hops
    obtain ⟨rfl, ⟨rfl, rfl, rfl⟩, -⟩ := hops
    intro m hlookup
    revert hlookup
    decide +kernel
  · simp at hops
    obtain ⟨rfl, rfl, ⟨rfl, rfl, rfl⟩, -⟩ := hops
    intro m hlookup
    revert hlookup
    decide +kernel
  · simp at hops
    obtain ⟨rfl, rfl, rfl, ⟨rfl, rfl, rfl⟩, -⟩ := hops
    intro m hlookup
    revert hlookup
    decide +kernel
  · simp at hops

/-- A metric that has the same value after two minutes. -/
theorem not_alwaysRefreshed : ¬ ∀ (fmt : Option ℚ → String) (c : Computation) (ops : List MetaOp),
    (updateTimes ops).Pairwise (· ≤ ·) → AlwaysRefreshed fmt (init c 1 1 1 10 5) ops := by
  intro h
  have hminute := (h (fun _ => "") .sum
    [.add_metric 1, .metric_update 1 2 1000, .metric_update 1 2 1120] (by decide)
    [.add_metric 1, .metric_update 1 2 1000] 1 2 1120 (List.prefix_refl _) (by decide +kernel)).minute 1000
    (by decide +kernel) (by decide)
  exact hminute (by decide +kernel)

end MetaService

end CentreonBroker.Bam.Visit
