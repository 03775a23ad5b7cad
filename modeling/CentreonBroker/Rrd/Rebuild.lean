import CentreonBroker.Rrd.Graph

/-!
# The order of the updates around a rebuild

A rebuild of a graph starts with the first start that follows its last end or its last removal.
While it lasts only its own values are written. At its end all the live values follow, in the
order of their arrival, and from then on the values as they arrive.
-/

namespace CentreonBroker.Rrd

/-! ## What has happened to a graph -/

namespace Event

/-- A rebuild of the graph starts. Its file is removed. -/
def Starts (g : Graph) : Event → Prop
  | rebuild e => e.graph = g ∧ e.ends = false
  | _ => False

/-- A rebuild of the graph ends. -/
def Ends (g : Graph) : Event → Prop
  | rebuild e => e.graph = g ∧ e.ends = true
  | _ => False

/-- The graph is removed. -/
def Deletes (g : Graph) : Event → Prop
  | remove_graph e => e.graph = g
  | _ => False

instance (g : Graph) : DecidablePred (Starts g)
  | value _ => inferInstanceAs (Decidable False)
  | rebuild _ => inferInstanceAs (Decidable (_ ∧ _))
  | remove_graph _ => inferInstanceAs (Decidable False)
  | other => inferInstanceAs (Decidable False)

instance (g : Graph) : DecidablePred (Ends g)
  | value _ => inferInstanceAs (Decidable False)
  | rebuild _ => inferInstanceAs (Decidable (_ ∧ _))
  | remove_graph _ => inferInstanceAs (Decidable False)
  | other => inferInstanceAs (Decidable False)

instance (g : Graph) : DecidablePred (Deletes g)
  | value _ => inferInstanceAs (Decidable False)
  | rebuild _ => inferInstanceAs (Decidable False)
  | remove_graph _ => inferInstanceAs (Decidable (_ = _))
  | other => inferInstanceAs (Decidable False)

/-- The value of the graph, where its kind is written. -/
def valueOf (writes : Bool) (g : Graph) : Event → Option Value
  | value v => if v.graph = g ∧ writes = true then some v else none
  | _ => none

end Event

open Event

/-- The values of a graph among the events, in their order. -/
def values (writes : Bool) (g : Graph) (es : List Event) : List Value :=
  es.filterMap (valueOf writes g)

/-- Those that are flagged for a rebuild. -/
def flagged (writes : Bool) (g : Graph) (es : List Event) : List Value :=
  (values writes g es).filter fun v => v.is_for_rebuild

/-- Those that are not. -/
def live (writes : Bool) (g : Graph) (es : List Event) : List Value :=
  (values writes g es).filter fun v => !v.is_for_rebuild

/-- The events after the last start of a rebuild of the graph; all of them if there is none. -/
def sinceStart (g : Graph) : List Event → List Event
  | [] => []
  | e :: es =>
    if Starts g e then sinceStart g es else if ∃ e' ∈ es, Starts g e' then sinceStart g es else e :: es

/-- A rebuild of the graph has started, and neither its end nor a removal has come. -/
def Rebuilding (g : Graph) (es : List Event) : Prop :=
  ∃ before e during, es = before ++ e :: during ∧ Starts g e ∧
    ∀ e' ∈ during, ¬ Ends g e' ∧ ¬ Deletes g e'

/--
What the file of a graph has been updated with since its last removal, as the events tell it.
At first it holds the updates `init`.
-/
inductive Story (fixed : ℚ → List Char) (writes : Bool) (g : Graph)
    (init : List (ℤ × List Char)) : List Event → List (ℤ × List Char) → Prop
  /-- The file was never removed. -/
  | kept (es : List Event) (hes : ∀ e ∈ es, ¬ Starts g e ∧ ¬ Deletes g e) :
    Story fixed writes g init es (init ++ (values writes g es).map (Value.update fixed))
  /-- The graph was removed. -/
  | removed (before : List Event) (e : Event) (after : List Event) (he : Deletes g e)
      (hafter : ∀ e' ∈ after, ¬ Starts g e' ∧ ¬ Deletes g e') :
    Story fixed writes g init (before ++ e :: after)
      ((values writes g after).map (Value.update fixed))
  /-- The graph is being rebuilt. -/
  | rebuilding (before : List Event) (e : Event) (during : List Event)
      (hbefore : ¬ Rebuilding g before) (he : Starts g e)
      (hduring : ∀ e' ∈ during, ¬ Ends g e' ∧ ¬ Deletes g e') :
    Story fixed writes g init (before ++ e :: during)
      ((flagged writes g (sinceStart g during)).map (Value.update fixed))
  /-- The graph was rebuilt. -/
  | rebuilt (before : List Event) (e : Event) (during : List Event) (e' : Event)
      (after : List Event) (hbefore : ¬ Rebuilding g before) (he : Starts g e)
      (hduring : ∀ e' ∈ during, ¬ Ends g e' ∧ ¬ Deletes g e') (he' : Ends g e')
      (hafter : ∀ e' ∈ after, ¬ Starts g e' ∧ ¬ Deletes g e') :
    Story fixed writes g init (before ++ e :: (during ++ e' :: after))
      ((flagged writes g (sinceStart g during) ++ live writes g during ++
        values writes g after).map (Value.update fixed))

section

variable {fixed : ℚ → List Char} {writes : Bool} {g : Graph} {init : List (ℤ × List Char)}

/-! ## Every history is one of these -/

theorem rebuilding_concat (es : List Event) (e : Event) :
    Rebuilding g (es ++ [e]) ↔ Starts g e ∨ Rebuilding g es ∧ ¬ Ends g e ∧ ¬ Deletes g e := by
  constructor
  · rintro ⟨before, e₀, during, heq, he₀, hduring⟩
    rcases List.eq_nil_or_concat during with rfl | ⟨during', last, rfl⟩
    · obtain ⟨-, hlast⟩ := List.append_inj' heq rfl
      obtain rfl := List.singleton_inj.mp hlast
      exact Or.inl he₀
    · rw [List.concat_eq_append, ← List.cons_append, ← List.append_assoc] at heq
      obtain ⟨rfl, hlast⟩ := List.append_inj' heq rfl
      obtain rfl := List.singleton_inj.mp hlast
      refine Or.inr ⟨⟨before, e₀, during', rfl, he₀, fun e' he' => ?_⟩, ?_⟩
      · exact hduring e' (by simp [he'])
      · exact hduring e (by simp)
  · rintro (he | ⟨⟨before, e₀, during, rfl, he₀, hduring⟩, hends, hdeletes⟩)
    · exact ⟨es, e, [], rfl, he, List.forall_mem_nil _⟩
    · refine ⟨before, e₀, during ++ [e], by simp, he₀, fun e' he' => ?_⟩
      rcases List.mem_append.mp he' with he' | he'
      · exact hduring e' he'
      · obtain rfl := List.mem_singleton.mp he'
        exact ⟨hends, hdeletes⟩

theorem not_rebuilding_nil : ¬ Rebuilding g [] := by
  rintro ⟨before, e, during, heq, -⟩
  simp at heq

variable {es : List Event}

/-- A rebuild has a first start. -/
theorem Rebuilding.first (h : Rebuilding g es) :
    ∃ before e during, es = before ++ e :: during ∧ ¬ Rebuilding g before ∧ Starts g e ∧
      ∀ e' ∈ during, ¬ Ends g e' ∧ ¬ Deletes g e' := by
  induction es using List.reverseRecOn with
  | nil => exact absurd h not_rebuilding_nil
  | append_singleton es e ih =>
    by_cases hes : Rebuilding g es
    · obtain ⟨before, e₀, during, rfl, hbefore, he₀, hduring⟩ := ih hes
      refine ⟨before, e₀, during ++ [e], by simp, hbefore, he₀, fun e' he' => ?_⟩
      rcases List.mem_append.mp he' with he' | he'
      · exact hduring e' he'
      · obtain rfl := List.mem_singleton.mp he'
        rcases (rebuilding_concat _ _).mp h with hstart | ⟨-, hkept⟩
        · cases e' <;> simp_all [Starts, Ends, Deletes]
        · exact hkept
    · have hstart := ((rebuilding_concat es e).mp h).resolve_right fun h => hes h.1
      exact ⟨es, e, [], rfl, hes, hstart, List.forall_mem_nil _⟩

variable {e : Event}

theorem forall_mem_concat {p : Event → Prop} (hes : ∀ e' ∈ es, p e')
    (he : p e) : ∀ e' ∈ es ++ [e], p e' := by
  intro e' he'
  rcases List.mem_append.mp he' with he' | he'
  · exact hes e' he'
  · obtain rfl := List.mem_singleton.mp he'
    exact he

/-- An event that does not remove the file, nor end the rebuild, belongs to the same story. -/
theorem Story.concat {u : List (ℤ × List Char)} (h : Story fixed writes g init es u)
    (hstart : ¬ Starts g e) (hdelete : ¬ Deletes g e)
    (hend : Ends g e → ¬ Rebuilding g es) : ∃ u', Story fixed writes g init (es ++ [e]) u' := by
  cases h with
  | kept es hes => exact ⟨_, .kept (es ++ [e]) (forall_mem_concat hes ⟨hstart, hdelete⟩)⟩
  | removed before e₀ after he hafter =>
    rw [List.append_assoc, List.cons_append]
    exact ⟨_, .removed before e₀ (after ++ [e]) he (forall_mem_concat hafter ⟨hstart, hdelete⟩)⟩
  | rebuilding before e₀ during hbefore he hduring =>
    have hnot : ¬ Ends g e := fun hends => hend hends ⟨before, e₀, during, rfl, he, hduring⟩
    rw [List.append_assoc, List.cons_append]
    exact ⟨_, .rebuilding before e₀ (during ++ [e]) hbefore he
      (forall_mem_concat hduring ⟨hnot, hdelete⟩)⟩
  | rebuilt before e₀ during e' after hbefore he hduring he' hafter =>
    rw [List.append_assoc, List.cons_append, List.append_assoc, List.cons_append]
    exact ⟨_, .rebuilt before e₀ during e' (after ++ [e]) hbefore he hduring he'
      (forall_mem_concat hafter ⟨hstart, hdelete⟩)⟩

/-- **Every history tells a story.** -/
theorem exists_story (fixed : ℚ → List Char) (writes : Bool) (g : Graph)
    (init : List (ℤ × List Char)) (es : List Event) : ∃ u, Story fixed writes g init es u := by
  induction es using List.reverseRecOn with
  | nil => exact ⟨_, .kept [] (List.forall_mem_nil _)⟩
  | append_singleton es e ih =>
    obtain ⟨u, hu⟩ := ih
    by_cases hdelete : Deletes g e
    · exact ⟨_, .removed es e [] hdelete (List.forall_mem_nil _)⟩
    · by_cases hrebuilding : Rebuilding g es
      · obtain ⟨before, e₀, during, rfl, hbefore, he₀, hduring⟩ := hrebuilding.first
        rw [List.append_assoc, List.cons_append]
        by_cases hend : Ends g e
        · exact ⟨_, .rebuilt before e₀ during e [] hbefore he₀ hduring hend (List.forall_mem_nil _)⟩
        · exact ⟨_, .rebuilding before e₀ (during ++ [e]) hbefore he₀
            (forall_mem_concat hduring ⟨hend, hdelete⟩)⟩
      · by_cases hstart : Starts g e
        · exact ⟨_, .rebuilding es e [] hrebuilding hstart (List.forall_mem_nil _)⟩
        · exact hu.concat hstart hdelete fun _ => hrebuilding

/-! ## What an event does to a graph, by what it is to it -/

theorem step_of_starts (he : Starts g e) (t : Track) :
    t.step fixed writes g e = ⟨[], some (t.pending.getD [])⟩ := by
  cases e with
  | rebuild e => simp [Track.step, he.1, he.2]
  | value v => exact he.elim
  | remove_graph e => exact he.elim
  | other => exact he.elim

theorem step_of_ends (he : Ends g e) (t : Track) : t.step fixed writes g e =
    ⟨t.updates ++ (t.pending.getD []).map (Value.update fixed), none⟩ := by
  cases e with
  | rebuild e => simp [Track.step, he.1, he.2]
  | value v => exact he.elim
  | remove_graph e => exact he.elim
  | other => exact he.elim

theorem step_of_deletes (he : Deletes g e) (t : Track) :
    t.step fixed writes g e = ⟨[], none⟩ := by
  cases e with
  | remove_graph e => exact if_pos he
  | value v => exact he.elim
  | rebuild e => exact he.elim
  | other => exact he.elim

theorem step_of_value {v : Value} (he : valueOf writes g e = some v) (t : Track) :
    t.step fixed writes g e = t.take fixed v := by
  cases e with
  | value v' =>
    simp only [valueOf] at he
    split at he
    · rename_i hv
      obtain rfl := Option.some.inj he
      exact if_pos hv
    · cases he
  | rebuild e => cases he
  | remove_graph e => cases he
  | other => cases he

theorem step_of_none (hvalue : valueOf writes g e = none) (hstart : ¬ Starts g e)
    (hend : ¬ Ends g e) (hdelete : ¬ Deletes g e) (t : Track) : t.step fixed writes g e = t := by
  cases e with
  | value v =>
    simp only [valueOf] at hvalue
    split at hvalue
    · cases hvalue
    · rename_i hv
      exact if_neg hv
  | rebuild e =>
    refine if_neg fun hg => ?_
    cases hends : e.ends with
    | true => exact hend ⟨hg, hends⟩
    | false => exact hstart ⟨hg, hends⟩
  | remove_graph e => exact if_neg hdelete
  | other => rfl

/-- An event with a value of the graph is nothing else to it. -/
theorem of_valueOf {v : Value} (he : valueOf writes g e = some v) :
    ¬ Starts g e ∧ ¬ Ends g e ∧ ¬ Deletes g e := by
  cases e with
  | value v' => exact ⟨id, id, id⟩
  | rebuild e => cases he
  | remove_graph e => cases he
  | other => cases he

theorem valueOf_of_starts (he : Starts g e) : valueOf writes g e = none := by
  cases hv : valueOf writes g e with
  | none => rfl
  | some v => exact absurd he (of_valueOf hv).1

/-! ## Runs -/

theorem values_cons (e : Event) (es : List Event) :
    values writes g (e :: es) = (valueOf writes g e).toList ++ values writes g es := by
  cases hv : valueOf writes g e <;> simp [values, hv]

/-- **A graph that is not being rebuilt is not delayed.** -/
theorem run_kept (es : List Event) (u : List (ℤ × List Char))
    (hes : ∀ e ∈ es, ¬ Starts g e ∧ ¬ Deletes g e) :
    es.foldl (Track.step fixed writes g) ⟨u, none⟩ =
      ⟨u ++ (values writes g es).map (Value.update fixed), none⟩ := by
  induction es generalizing u with
  | nil => simp [values]
  | cons e es ih =>
    obtain ⟨hstart, hdelete⟩ := hes e List.mem_cons_self
    have hrest := fun u => ih u fun e' he' => hes e' (List.mem_cons_of_mem e he')
    rw [List.foldl_cons, values_cons]
    cases hv : valueOf writes g e with
    | some v =>
      have htake : Track.take fixed v ⟨u, none⟩ = ⟨u ++ [v.update fixed], none⟩ := by
        rw [Track.take]
        cases v.is_for_rebuild <;> rfl
      rw [step_of_value hv, htake, hrest, Option.toList_some, List.map_append, List.append_assoc]
      rfl
    | none =>
      by_cases hend : Ends g e
      · rw [step_of_ends hend, Option.getD_none, List.map_nil, List.append_nil, hrest]
        rfl
      · rw [step_of_none hv hstart hend hdelete, hrest]
        rfl

theorem sinceStart_of_none (h : ∀ e ∈ es, ¬ Starts g e) : sinceStart g es = es := by
  cases es with
  | nil => rfl
  | cons e es =>
    rw [sinceStart, if_neg (h e List.mem_cons_self), if_neg]
    rintro ⟨e', he', hstart⟩
    exact h e' (List.mem_cons_of_mem e he') hstart

/-- **In a rebuild the flagged values are written and the live ones are put aside.** -/
theorem run_during (es : List Event) (u : List (ℤ × List Char)) (l : List Value)
    (hes : ∀ e ∈ es, ¬ Ends g e ∧ ¬ Deletes g e) :
    es.foldl (Track.step fixed writes g) ⟨u, some l⟩ =
      ⟨if ∃ e ∈ es, Starts g e then (flagged writes g (sinceStart g es)).map (Value.update fixed)
        else u ++ (flagged writes g es).map (Value.update fixed),
      some (l ++ live writes g es)⟩ := by
  induction es generalizing u l with
  | nil => simp [flagged, live, values]
  | cons e es ih =>
    obtain ⟨hend, hdelete⟩ := hes e List.mem_cons_self
    have hrest := fun u l => ih u l fun e' he' => hes e' (List.mem_cons_of_mem e he')
    rw [List.foldl_cons]
    by_cases hstart : Starts g e
    · -- the file is removed again, and what was put aside is kept
      have hvalues : values writes g (e :: es) = values writes g es := by
        rw [values_cons, valueOf_of_starts hstart]
        rfl
      have hhead : ∃ e' ∈ e :: es, Starts g e' := ⟨e, List.mem_cons_self, hstart⟩
      rw [step_of_starts hstart, Option.getD_some, hrest, if_pos hhead,
        sinceStart, if_pos hstart, live, live, hvalues]
      by_cases hlater : ∃ e' ∈ es, Starts g e'
      · rw [if_pos hlater]
      · rw [if_neg hlater, List.nil_append,
          sinceStart_of_none fun e' he' hs => hlater ⟨e', he', hs⟩]
    · have hiff : (∃ e' ∈ e :: es, Starts g e') ↔ ∃ e' ∈ es, Starts g e' := by
        simp [hstart]
      have hsince : (∃ e' ∈ es, Starts g e') → sinceStart g (e :: es) = sinceStart g es := by
        intro hlater
        rw [sinceStart, if_neg hstart, if_pos hlater]
      cases hv : valueOf writes g e with
      | some v =>
        rw [step_of_value hv, Track.take]
        cases hflag : v.is_for_rebuild with
        | true | false =>
          simp only [hrest]
          by_cases hlater : ∃ e' ∈ es, Starts g e'
          · rw [if_pos hlater, if_pos (hiff.mpr hlater), hsince hlater]
            simp [live, values_cons, hv, hflag]
          · rw [if_neg hlater, if_neg fun h => hlater (hiff.mp h)]
            simp [flagged, live, values_cons, hv, hflag]
      | none =>
        rw [step_of_none hv hstart hend hdelete, hrest]
        by_cases hlater : ∃ e' ∈ es, Starts g e'
        · rw [if_pos hlater, if_pos (hiff.mpr hlater), hsince hlater]
          simp [live, values_cons, hv]
        · rw [if_neg hlater, if_neg fun h => hlater (hiff.mp h)]
          simp [flagged, live, values_cons, hv]

/-- The same from the start of the rebuild on. -/
theorem run_rebuild (es : List Event) (l : List Value) (hes : ∀ e ∈ es, ¬ Ends g e ∧ ¬ Deletes g e) :
    es.foldl (Track.step fixed writes g) ⟨[], some l⟩ =
      ⟨(flagged writes g (sinceStart g es)).map (Value.update fixed),
      some (l ++ live writes g es)⟩ := by
  rw [run_during es [] l hes]
  by_cases hlater : ∃ e ∈ es, Starts g e
  · rw [if_pos hlater]
  · rw [if_neg hlater, List.nil_append, sinceStart_of_none fun e he hs => hlater ⟨e, he, hs⟩]

/-- What is put aside: nothing, but in a rebuild. -/
theorem pending_of_not_rebuilding (h : ¬ Rebuilding g es)
    (u : List (ℤ × List Char)) :
    (es.foldl (Track.step fixed writes g) ⟨u, none⟩).pending = none := by
  induction es using List.reverseRecOn with
  | nil => rfl
  | append_singleton es e ih =>
    rw [rebuilding_concat, not_or] at h
    obtain ⟨hstart, hrest⟩ := h
    rw [List.foldl_append, List.foldl_cons, List.foldl_nil]
    by_cases hend : Ends g e
    · rw [step_of_ends hend]
    · by_cases hdelete : Deletes g e
      · rw [step_of_deletes hdelete]
      · have hes := ih fun hes => hrest ⟨hes, hend, hdelete⟩
        cases hv : valueOf writes g e with
        | some v =>
          rw [step_of_value hv, Track.take, hes]
          cases v.is_for_rebuild <;> rfl
        | none =>
          rw [step_of_none hv hstart hend hdelete]
          exact hes

/-- **The file of a graph is what its story says.** -/
theorem updates_of_story {u : List (ℤ × List Char)}
    (h : Story fixed writes g init es u) :
    (es.foldl (Track.step fixed writes g) ⟨init, none⟩).updates = u := by
  cases h with
  | kept es hes => rw [run_kept es init hes]
  | removed before e after he hafter =>
    rw [List.foldl_append, List.foldl_cons, step_of_deletes he, run_kept after [] hafter,
      List.nil_append]
  | rebuilding before e during hbefore he hduring =>
    rw [List.foldl_append, List.foldl_cons, step_of_starts he, pending_of_not_rebuilding hbefore,
      run_rebuild during _ hduring]
  | rebuilt before e during e' after hbefore he hduring he' hafter =>
    rw [List.foldl_append, List.foldl_cons, step_of_starts he, pending_of_not_rebuilding hbefore,
      List.foldl_append, run_rebuild during _ hduring, List.foldl_cons, step_of_ends he',
      run_kept after _ hafter, Option.getD_none, Option.getD_some, List.nil_append, ← List.map_append,
      ← List.map_append]

end

/-! ## The output -/

open Connector (new_endpoint)

theorem sound_open (realpath : List Char → Option (List Char)) (metrics_path status_path : List Char)
    (write_metrics write_status : Bool) (backend : Backend)
    (hdistinct :
      (new_endpoint realpath metrics_path status_path write_metrics write_status).metrics_path ≠
      (new_endpoint realpath metrics_path status_path write_metrics write_status).status_path) :
    ((new_endpoint realpath metrics_path status_path write_metrics write_status).open_output
      backend).Sound := by
  refine ⟨Output.separate_of_folders (fun kind => ?_) hdistinct, fun g l hl => ?_⟩
  · cases kind with
    | metrics =>
      cases write_metrics with
      | true => exact folder_real_path_of realpath metrics_path
      | false => exact Or.inl rfl
    | status =>
      cases write_status with
      | true => exact folder_real_path_of realpath status_path
      | false => exact Or.inl rfl
  · cases hl

/--
**Rebuild ordering.** With distinct paths, the updates of each file since its last removal are
what the story of its graph says. A graph that is not being rebuilt is not delayed, and the
removal of a graph discards what is put aside for it and nothing else.
-/
theorem rebuild_ordered (fixed : ℚ → List Char) (realpath : List Char → Option (List Char))
    (metrics_path status_path : List Char) (write_metrics write_status : Bool) (backend : Backend)
    (hdistinct :
      (new_endpoint realpath metrics_path status_path write_metrics write_status).metrics_path ≠
      (new_endpoint realpath metrics_path status_path write_metrics write_status).status_path)
    (es : List (Option Event)) :
    let s₀ := (new_endpoint realpath metrics_path status_path write_metrics write_status).open_output
      backend
    let s := s₀.run fixed es
    (∀ g, ∃! u, Story fixed (s₀.writes g.kind) g (s₀.updates g) es.reduceOption u) ∧
    (∀ g u, Story fixed (s₀.writes g.kind) g (s₀.updates g) es.reduceOption u → s.updates g = u) ∧
    (∀ v, s₀.writes v.kind = true → ¬ Rebuilding v.graph es.reduceOption →
      (s.write fixed (some (.value v))).2.updates v.graph = s.updates v.graph ++ [v.update fixed]) ∧
    ∀ e : RemoveGraph, (s.write fixed (some (.remove_graph e))).2.pending e.graph = none ∧
      ∀ g, g ≠ e.graph → (s.write fixed (some (.remove_graph e))).2.pending g = s.pending g ∧
        (s.write fixed (some (.remove_graph e))).2.updates g = s.updates g := by
  intro s₀ s
  have hsound : s₀.Sound := sound_open realpath metrics_path status_path write_metrics write_status
    backend hdistinct
  have hrun : s.Sound := hsound.run es
  have htrack : ∀ g, s.track g = es.reduceOption.foldl (Track.step fixed (s₀.writes g.kind) g)
      ⟨s₀.updates g, none⟩ := fun g => Output.track_run hsound es g
  have hstory : ∀ g u, Story fixed (s₀.writes g.kind) g (s₀.updates g) es.reduceOption u →
      s.updates g = u := by
    intro g u hu
    have hupdates := updates_of_story hu
    rw [← htrack] at hupdates
    exact hupdates
  refine ⟨fun g => ?_, hstory, fun v hwrites hnot => ?_, fun e => ⟨?_, fun g hg => ?_⟩⟩
  · obtain ⟨u, hu⟩ := exists_story fixed (s₀.writes g.kind) g (s₀.updates g) es.reduceOption
    exact ⟨u, hu, fun u' hu' => (hstory g u' hu').symm.trans (hstory g u hu)⟩
  · have hpending : s.pending v.graph = none := by
      have hnone : (es.reduceOption.foldl (Track.step fixed (s₀.writes v.kind) v.graph)
          ⟨s₀.updates v.graph, none⟩).pending = none := pending_of_not_rebuilding hnot _
      have hkind := htrack v.graph
      rw [show s₀.writes v.graph.kind = s₀.writes v.kind from rfl] at hkind
      rw [← hkind] at hnone
      exact hnone
    have hconfig : s.writes = s₀.writes := Output.run_writes es s₀
    have hstep := Output.track_write fixed hrun (.value v) v.graph
    rw [hconfig] at hstep
    simp only [Track.step] at hstep
    rw [if_pos ⟨trivial, hwrites⟩, Track.take] at hstep
    simp only [Output.track, hpending] at hstep
    cases hflag : v.is_for_rebuild <;> simp only [hflag, Track.mk.injEq] at hstep <;> exact hstep.1
  · have hstep := Output.track_write fixed hrun (.remove_graph e) e.graph
    simp only [Track.step, if_true, Output.track, Track.mk.injEq] at hstep
    exact hstep.2
  · have hstep := Output.track_write fixed hrun (.remove_graph e) g
    simp only [Track.step, if_neg (Ne.symm hg), Output.track, Track.mk.injEq] at hstep
    exact ⟨hstep.2, hstep.1⟩

/-- The status of index 1, which is in a rebuild or not. -/
def statusAt (ctime state : ℤ) (is_for_rebuild : Bool) : Event :=
  .value (.status ⟨ctime, 1, 60, is_for_rebuild, 86400, state⟩)

def noFiles : Backend := ⟨[], fun _ => none⟩

/-- A live value that comes in a rebuild is written after the values of the rebuild. -/
theorem rebuild_ordered_status :
    (((new_endpoint (fun _ => none) "/metrics".toList "/status".toList true true).open_output
      noFiles).run (fun _ => []) ((Event.rebuild ⟨false, 1, true⟩ ::
        ([statusAt 40 1 false, statusAt 10 2 true] ++ Event.rebuild ⟨true, 1, true⟩ ::
          [statusAt 50 0 false])).map some)).updates ⟨.status, 1⟩ =
      [(10, "0".toList), (40, "75".toList), (50, "100".toList)] := by
  have hstory := @Story.rebuilt (fun _ => []) true ⟨.status, 1⟩ [] [] (.rebuild ⟨false, 1, true⟩) [statusAt 40 1 false, statusAt 10 2 true]
    (.rebuild ⟨true, 1, true⟩) [statusAt 50 0 false] not_rebuilding_nil (by decide) (by decide)
    (by decide) (by decide)
  have hordered := (rebuild_ordered (fun _ => []) (fun _ => none) "/metrics".toList
    "/status".toList true true noFiles (by decide) ((Event.rebuild ⟨false, 1, true⟩ ::
        ([statusAt 40 1 false, statusAt 10 2 true] ++ Event.rebuild ⟨true, 1, true⟩ ::
          [statusAt 50 0 false])).map some)).2.1 ⟨.status, 1⟩ _ hstory
  exact hordered

/--
The removal of a graph ends its rebuild, so that a live value that comes before the end is
written at once; and the values of a kind that is not written never are.
-/
theorem not_rebuild_ordered :
    (¬ ∀ (fixed : ℚ → List Char) (realpath : List Char → Option (List Char))
      (metrics_path status_path : List Char) (write_metrics write_status : Bool) (backend : Backend),
      (new_endpoint realpath metrics_path status_path write_metrics write_status).metrics_path ≠
        (new_endpoint realpath metrics_path status_path write_metrics write_status).status_path →
      ∀ (g : Graph) (e : Event) (during : List Event), Starts g e → (∀ e' ∈ during, ¬ Ends g e') →
      ∀ u ∈ (((new_endpoint realpath metrics_path status_path write_metrics
        write_status).open_output backend).run fixed ((e :: during).map some)).updates g,
        ∃ v ∈ flagged true g during, u = v.update fixed) ∧
    (¬ ∀ (fixed : ℚ → List Char) (realpath : List Char → Option (List Char))
      (metrics_path status_path : List Char) (write_metrics write_status : Bool) (backend : Backend),
      (new_endpoint realpath metrics_path status_path write_metrics write_status).metrics_path ≠
        (new_endpoint realpath metrics_path status_path write_metrics write_status).status_path →
      ∀ (g : Graph) (e : Event) (during : List Event) (e' : Event), Starts g e →
      (∀ e' ∈ during, ¬ Starts g e' ∧ ¬ Ends g e' ∧ ¬ Deletes g e') → Ends g e' →
      (((new_endpoint realpath metrics_path status_path write_metrics write_status).open_output
        backend).run fixed ((e :: during ++ [e']).map some)).updates g =
        (flagged true g during ++ live true g during).map (Value.update fixed)) := by
  refine ⟨fun h => ?_, fun h => ?_⟩
  · obtain ⟨v, hv, -⟩ := h (fun _ => []) (fun _ => none) "/metrics".toList "/status".toList true true
      noFiles (by decide) ⟨.status, 1⟩ (.rebuild ⟨false, 1, true⟩)
      [.remove_graph ⟨1, true⟩, statusAt 40 1 false] (by decide) (by decide) (40, "75".toList)
      (by decide +kernel)
    have hnone : flagged true ⟨.status, 1⟩ [.remove_graph ⟨1, true⟩, statusAt 40 1 false] = [] := by
      decide
    rw [hnone] at hv
    exact absurd hv List.not_mem_nil
  · have hwritten := h (fun _ => []) (fun _ => none) "/metrics".toList "/status".toList true false
      noFiles (by decide) ⟨.status, 1⟩ (.rebuild ⟨false, 1, true⟩) [statusAt 40 1 false]
      (.rebuild ⟨true, 1, true⟩) (by decide) (by decide) (by decide)
    exact absurd hwritten (by decide +kernel)

end CentreonBroker.Rrd
