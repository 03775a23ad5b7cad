import Mathlib.Data.List.Induction
import Mathlib.Data.List.Nodup
import Mathlib.Logic.Function.Basic
import Mathlib.Tactic.Cases

/-!
# Maps from a key of the value

A map in which each value is under its own key is the list of its values, in the order that they
are gone through. It may be that all values have a property as well.
-/

namespace CentreonBroker

/-- The values, each under its key. -/
@[ext]
structure Keyed {K V : Type} (key : V → K) (P : V → Prop) where
  values : List V
  nodup : (values.map key).Nodup
  property : ∀ v ∈ values, P v

namespace Keyed

variable {K V : Type} [DecidableEq K] {key : V → K} {P : V → Prop}

def empty : Keyed key P := ⟨[], List.nodup_nil, nofun⟩

def find (t : Keyed key P) (k : K) : Option V := t.values.find? fun v => key v = k

/-- The values that are kept. -/
def filter (p : V → Bool) (t : Keyed key P) : Keyed key P where
  values := t.values.filter p
  nodup := t.nodup.sublist (List.filter_sublist.map key)
  property v hv := t.property v (List.mem_of_mem_filter hv)

def erase (k : K) (t : Keyed key P) : Keyed key P := t.filter fun v => key v ≠ k

/-- The value comes in the place of the one that was under its key. -/
def insert (v : V) (hv : P v) (t : Keyed key P) : Keyed key P where
  values := (t.erase (key v)).values ++ [v]
  nodup := by
    rw [List.map_append, List.map_singleton]
    refine List.Nodup.append (t.erase (key v)).nodup (List.nodup_singleton _) ?_
    intro k hk hkey
    obtain ⟨w, hw, rfl⟩ := List.mem_map.mp hk
    exact of_decide_eq_true (List.mem_filter.mp hw).2 (List.mem_singleton.mp hkey)
  property w hw := by
    rcases List.mem_append.mp hw with hold | hnew
    · exact (t.erase (key v)).property w hold
    · exact List.mem_singleton.mp hnew ▸ hv

variable {t : Keyed key P} {k : K} {v : V}

/-! ## What is under a key -/

theorem find_eq_some_iff : t.find k = some v ↔ v ∈ t.values ∧ key v = k := by
  have hfound : ∀ w, t.find k = some w → w ∈ t.values ∧ key w = k := fun w h =>
    ⟨List.mem_of_find?_eq_some h, of_decide_eq_true (List.find?_some h :)⟩
  refine ⟨hfound v, ?_⟩
  rintro ⟨hv, hkey⟩
  cases hfind : t.find k with
  | none =>
    have hne := List.find?_eq_none.mp hfind v hv
    exact absurd (decide_eq_true hkey) hne
  | some w =>
    -- no two values have the key
    obtain ⟨hw, hkey'⟩ := hfound w hfind
    rw [List.inj_on_of_nodup_map t.nodup hw hv (hkey'.trans hkey.symm)]

theorem find_key (h : t.find k = some v) : key v = k := (find_eq_some_iff.mp h).2

theorem find_eq_none_iff : t.find k = none ↔ ∀ v ∈ t.values, key v ≠ k := by
  rw [find, List.find?_eq_none]
  exact forall₂_congr fun v _ => by rw [decide_eq_true_eq]

theorem find_filter (p : V → Bool) (t : Keyed key P) (k : K) :
    (t.filter p).find k = (t.find k).filter p := by
  refine Option.ext fun v => ?_
  rw [Option.filter_eq_some_iff, find_eq_some_iff, find_eq_some_iff, filter, List.mem_filter]
  exact and_right_comm

theorem find_erase (k : K) (t : Keyed key P) :
    (t.erase k).find = Function.update t.find k none := by
  funext k'
  rw [erase, find_filter]
  by_cases h : k' = k
  · rw [h, Function.update_self, Option.filter_eq_none_iff]
    intro v hv
    simp [find_key hv]
  · rw [Function.update_of_ne h]
    refine Option.ext fun v => ?_
    rw [Option.filter_eq_some_iff]
    refine and_iff_left_of_imp fun hv => decide_eq_true ?_
    rw [find_key hv]
    exact h

/-- A filter that looks at the key only. -/
theorem find_filter_key (p : K → Bool) (t : Keyed key P) (k : K) :
    (t.filter fun v => p (key v)).find k = if p k then t.find k else none := by
  rw [find_filter]
  cases hfind : t.find k with
  | none => rw [Option.filter_none, ite_self]
  | some v => rw [Option.filter_some, find_key hfind]

/-- A map that has nothing under some keys. -/
theorem find_eq_forget_iff {p : K → Bool} :
    (t.find = fun k => if p k then none else t.find k) ↔ ∀ v ∈ t.values, p (key v) = false := by
  constructor
  · intro h v hv
    have hfind : t.find (key v) = some v := find_eq_some_iff.mpr ⟨hv, rfl⟩
    by_contra hp
    rw [congrFun h, if_pos (eq_true_of_ne_false hp)] at hfind
    cases hfind
  · intro h
    funext k
    split
    · rename_i hp
      refine find_eq_none_iff.mpr ?_
      rintro v hv rfl
      rw [h v hv] at hp
      cases hp
    · rfl

theorem find_insert (v : V) (hv : P v) (t : Keyed key P) :
    (t.insert v hv).find = Function.update t.find (key v) (some v) := by
  funext k
  by_cases h : k = key v
  · rw [h, Function.update_self, find_eq_some_iff]
    exact ⟨List.mem_append_right _ List.mem_cons_self, rfl⟩
  · have hnew : [v].find? (fun w => decide (key w = k)) = none := by
      rw [List.find?_singleton, if_neg (by simpa using Ne.symm h)]
    rw [Function.update_of_ne h, find, insert, List.find?_append, hnew, Option.or_none]
    exact (congrFun (find_erase (key v) t) k).trans (Function.update_of_ne h _ _)

/-- The value under a key, and the others. -/
theorem perm_of_find (h : t.find k = some v) : t.values.Perm (v :: (t.erase k).values) := by
  obtain ⟨hv, hkey⟩ := find_eq_some_iff.mp h
  obtain ⟨l₁, l₂, hl⟩ := List.append_of_mem hv
  have hnodup := t.nodup
  rw [hl] at hnodup
  have hmiddle := hnodup.perm (List.perm_middle.map key)
  rw [List.map_cons, List.nodup_cons, hkey] at hmiddle
  have hother : ∀ w ∈ l₁ ++ l₂, key w ≠ k := fun w hw heq =>
    hmiddle.1 (List.mem_map.mpr ⟨w, hw, heq⟩)
  have herase : (t.erase k).values = l₁ ++ l₂ := by
    show t.values.filter (fun w => key w ≠ k) = _
    rw [hl, List.filter_append, List.filter_cons_of_neg (by simp [hkey]), ← List.filter_append]
    exact List.filter_eq_self.mpr fun w hw => decide_eq_true (hother w hw)
  rw [herase, hl]
  exact List.perm_middle

/-! ## One value after the other -/

/-- Nothing is replaced when no value has the key. -/
theorem values_insert (hv : P v) (h : ∀ w ∈ t.values, key w ≠ key v) :
    (t.insert v hv).values = t.values ++ [v] := by
  show (t.values.filter fun w => key w ≠ key v) ++ [v] = _
  rw [List.filter_eq_self.mpr fun w hw => decide_eq_true (h w hw)]

/-- **The values of a map make the map**, when they are put in one after the other. -/
theorem foldl_values {S : Type} (put : Keyed key P → S) (write : S → V → S)
    (hwrite : ∀ t v (hv : P v), write (put t) v = put (t.insert v hv)) (t : Keyed key P) :
    t.values.foldl write (put empty) = put t := by
  obtain ⟨values, hnodup, hproperty⟩ := t
  induction values using List.reverseRecOn with
  | nil => rfl
  | append_singleton values v ih =>
    have hsplit := hnodup
    rw [List.map_append, List.map_singleton, List.nodup_append] at hsplit
    obtain ⟨hold, -, hne⟩ := hsplit
    have hproperty' : ∀ w ∈ values, P w := fun w hw => hproperty w (List.mem_append_left _ hw)
    have hv : P v := hproperty v (List.mem_append_right _ List.mem_cons_self)
    rw [List.foldl_append, ih hold hproperty']
    show write (put ⟨values, hold, hproperty'⟩) v = _
    rw [hwrite _ v hv]
    refine congrArg put (Keyed.ext (values_insert hv fun w hw => ?_))
    exact hne _ (List.mem_map_of_mem hw) _ List.mem_cons_self

end Keyed

end CentreonBroker
