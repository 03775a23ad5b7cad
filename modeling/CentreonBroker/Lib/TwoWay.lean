import Mathlib.Data.Finset.Basic
import Mathlib.Logic.Function.Basic

/-!
# Links that are kept at both ends

Each object has two sets of others, and what is in the one set of an object has the object in
its other set. Nothing but the operations keeps it so: a link is written twice, and erased twice.
-/

namespace CentreonBroker

/-- The two sets of every object. -/
structure TwoWay (ν : Type) where
  forth : ν → Finset ν
  back : ν → Finset ν

namespace TwoWay

variable {ν : Type} [DecidableEq ν] {t : TwoWay ν} {a b x y : ν}

def empty : TwoWay ν := ⟨fun _ => ∅, fun _ => ∅⟩

/-- The same links, from the other end. -/
def swap (t : TwoWay ν) : TwoWay ν := ⟨t.back, t.forth⟩

/-- A loop over a set, which inserts an object into a set of each. -/
def insertInto (s : Finset ν) (a : ν) (sets : ν → Finset ν) : ν → Finset ν :=
  fun x => if x ∈ s then insert a (sets x) else sets x

/-- A loop over a set, which erases an object from a set of each. -/
def eraseFrom (s : Finset ν) (a : ν) (sets : ν → Finset ν) : ν → Finset ν :=
  fun x => if x ∈ s then (sets x).erase a else sets x

/-- Both ends of a link are written. -/
def link (t : TwoWay ν) (a b : ν) : TwoWay ν :=
  ⟨Function.update t.forth a (insert b (t.forth a)), Function.update t.back b (insert a (t.back b))⟩

/-- Both ends of a link are erased. -/
def unlink (t : TwoWay ν) (a b : ν) : TwoWay ν :=
  ⟨Function.update t.forth a ((t.forth a).erase b), Function.update t.back b ((t.back b).erase a)⟩

/-- The sets of `b` are copied to `a` one after the other, and `a` is written at the other ends. -/
def copyTo (t : TwoWay ν) (a b : ν) : TwoWay ν :=
  let forth := Function.update t.forth a (t.forth b)
  let back := insertInto (forth a) a t.back
  let back := Function.update back a (back b)
  let forth := insertInto (back a) a forth
  ⟨forth, back⟩

/-- An object is erased from the sets of all that it has in its own, and these are gone. -/
def forget (t : TwoWay ν) (a : ν) : TwoWay ν :=
  let back := eraseFrom (t.forth a) a t.back
  let forth := eraseFrom (back a) a t.forth
  ⟨Function.update forth a ∅, Function.update back a ∅⟩

/-- An object starts without links. -/
def clear (t : TwoWay ν) (a : ν) : TwoWay ν :=
  ⟨Function.update t.forth a ∅, Function.update t.back a ∅⟩

/-- Only these objects have links. -/
def Within (t : TwoWay ν) (s : Finset ν) : Prop := ∀ x y, y ∈ t.forth x ∨ y ∈ t.back x → x ∈ s

/-- A link is at both its ends. -/
def Mutual (t : TwoWay ν) : Prop := ∀ x y, y ∈ t.forth x ↔ x ∈ t.back y

/-- The links of an object, but for one to itself, are links of another object. -/
def Covers (t : TwoWay ν) (b a : ν) : Prop :=
  (∀ x ∈ t.forth a, x ≠ a → x ∈ t.forth b) ∧ ∀ x ∈ t.back a, x ≠ a → x ∈ t.back b

instance : Decidable (t.Covers b a) := inferInstanceAs (Decidable (_ ∧ _))

theorem mem_insertInto {s : Finset ν} {sets : ν → Finset ν} :
    y ∈ insertInto s a sets x ↔ y ∈ sets x ∨ x ∈ s ∧ y = a := by
  unfold insertInto
  split
  · rename_i hx
    rw [Finset.mem_insert, or_comm]
    exact or_congr_right (iff_and_self.mpr fun _ => hx)
  · rename_i hx
    exact ⟨.inl, fun h => h.resolve_right fun ⟨hs, _⟩ => hx hs⟩

theorem mem_eraseFrom {s : Finset ν} {sets : ν → Finset ν} :
    y ∈ eraseFrom s a sets x ↔ y ∈ sets x ∧ ¬ (x ∈ s ∧ y = a) := by
  unfold eraseFrom
  split
  · rename_i hx
    rw [Finset.mem_erase, and_comm]
    exact and_congr_right fun _ => not_congr (iff_and_self.mpr fun _ => hx)
  · rename_i hx
    exact ⟨fun h => ⟨h, fun ⟨hs, _⟩ => hx hs⟩, And.left⟩

theorem mem_update {sets : ν → Finset ν} {s : Finset ν} :
    y ∈ Function.update sets a s x ↔ if x = a then y ∈ s else y ∈ sets x := by
  by_cases hx : x = a
  · subst hx
    rw [Function.update_self, if_pos rfl]
  · rw [Function.update_of_ne hx, if_neg hx]

/-! ## What each operation makes of the sets -/

theorem mem_forth_link : y ∈ (t.link a b).forth x ↔ y ∈ t.forth x ∨ x = a ∧ y = b := by
  rw [link, mem_update]
  split
  · rename_i hx
    subst hx
    rw [Finset.mem_insert, or_comm]
    exact or_congr_right (iff_and_self.mpr fun _ => rfl)
  · rename_i hx
    exact ⟨.inl, fun h => h.resolve_right fun ⟨ha, _⟩ => hx ha⟩

theorem mem_forth_unlink : y ∈ (t.unlink a b).forth x ↔ y ∈ t.forth x ∧ ¬ (x = a ∧ y = b) := by
  rw [unlink, mem_update]
  split
  · rename_i hx
    subst hx
    rw [Finset.mem_erase, and_comm]
    exact and_congr_right fun _ => not_congr (iff_and_self.mpr fun _ => rfl)
  · rename_i hx
    exact ⟨fun h => ⟨h, fun ⟨ha, _⟩ => hx ha⟩, And.left⟩

theorem mem_back_link : y ∈ (t.link a b).back x ↔ y ∈ t.back x ∨ x = b ∧ y = a :=
  @mem_forth_link ν _ t.swap b a x y

theorem mem_back_unlink : y ∈ (t.unlink a b).back x ↔ y ∈ t.back x ∧ ¬ (x = b ∧ y = a) :=
  @mem_forth_unlink ν _ t.swap b a x y

theorem mem_back_copyTo : y ∈ (t.copyTo a b).back x ↔
    if x = a then y ∈ t.back b ∨ b ∈ t.forth b ∧ y = a else y ∈ t.back x ∨ x ∈ t.forth b ∧ y = a := by
  simp only [copyTo, mem_update, mem_insertInto, Function.update_self]

theorem mem_forth_copyTo : y ∈ (t.copyTo a b).forth x ↔
    (if x = a then y ∈ t.forth b else y ∈ t.forth x) ∨
      y = a ∧ (x ∈ t.back b ∨ b ∈ t.forth b ∧ x = a) := by
  simp only [copyTo, mem_update, mem_insertInto, Function.update_self]
  exact or_congr_right and_comm

/-- Nobody has an object in its sets that was forgotten. -/
theorem mem_back_forget (hmutual : t.Mutual) :
    y ∈ (t.forget a).back x ↔ y ∈ t.back x ∧ x ≠ a ∧ y ≠ a := by
  simp only [forget, mem_update, mem_eraseFrom]
  split
  · rename_i hx
    simp [hx]
  · rename_i hx
    refine and_congr_right fun hy => ⟨fun h => ⟨hx, ?_⟩, fun h hand => h.2 hand.2⟩
    rintro rfl
    exact h ⟨(hmutual _ _).mpr hy, rfl⟩

theorem mem_forth_forget (hmutual : t.Mutual) :
    y ∈ (t.forget a).forth x ↔ y ∈ t.forth x ∧ x ≠ a ∧ y ≠ a := by
  simp only [forget, mem_update, mem_eraseFrom]
  split
  · rename_i hx
    simp [hx]
  · rename_i hx
    refine and_congr_right fun hy => ⟨fun h => ⟨hx, ?_⟩, fun h hand => h.2 hand.2⟩
    rintro rfl
    -- the loop over the other set has not touched this end, as it is not `a` itself
    exact h ⟨⟨(hmutual _ _).mp hy, fun hand => hx hand.2⟩, rfl⟩

/-! ## Links stay at both ends -/

omit [DecidableEq ν] in
theorem mutual_empty : (empty : TwoWay ν).Mutual := by
  intro x y
  simp [empty]

omit [DecidableEq ν] in
theorem Mutual.swap (h : t.Mutual) : t.swap.Mutual := fun x y => (h y x).symm

theorem Mutual.link (h : t.Mutual) (a b : ν) : (t.link a b).Mutual := by
  intro x y
  rw [mem_forth_link, mem_back_link, h x y]
  exact or_congr_right and_comm

theorem Mutual.unlink (h : t.Mutual) (a b : ν) : (t.unlink a b).Mutual := by
  intro x y
  rw [mem_forth_unlink, mem_back_unlink, h x y]
  exact and_congr_right fun _ => not_congr and_comm

theorem Mutual.forget (h : t.Mutual) (a : ν) : (t.forget a).Mutual := by
  intro x y
  rw [mem_forth_forget h, mem_back_forget h, h x y]
  exact and_congr_right fun _ => and_comm

/-- **A copy over an object** keeps the links at both ends exactly when it erases no link. -/
theorem mutual_copyTo_iff (h : t.Mutual) (hne : a ≠ b) : (t.copyTo a b).Mutual ↔ t.Covers b a := by
  constructor
  · intro hcopy
    refine ⟨fun x hx hxa => ?_, fun x hx hxa => ?_⟩
    · -- `x` still has `a` in its set
      have hback : a ∈ (t.copyTo a b).back x := by
        rw [mem_back_copyTo, if_neg hxa]
        exact .inl ((h a x).mp hx)
      have hforth := (hcopy a x).mpr hback
      rw [mem_forth_copyTo, if_pos rfl] at hforth
      exact hforth.resolve_right fun hand => hxa hand.1
    · have hforth : a ∈ (t.copyTo a b).forth x := by
        rw [mem_forth_copyTo, if_neg hxa]
        exact .inl ((h x a).mpr hx)
      have hback := (hcopy x a).mp hforth
      rw [mem_back_copyTo, if_pos rfl] at hback
      exact hback.resolve_right fun hand => hxa hand.2
  · rintro ⟨hforth, hback⟩ x y
    rw [mem_forth_copyTo, mem_back_copyTo]
    by_cases hx : x = a
    · subst hx
      by_cases hy : y = x
      · subst hy
        simp only [if_true, and_true, true_and]
        refine ⟨fun hself => hself.elim (fun hself => .inr ?_) id, .inr⟩
        -- `b` has `y`, and so `y` has `b`: the copy has itself, through `b`
        exact (h b b).mpr (hback b ((h b y).mp hself) hne.symm)
      · simp only [if_true, hy, if_false, false_and, or_false, and_true]
        exact ⟨.inr, fun hx => hx.elim (fun hx => hforth y ((h x y).mpr hx) hy) id⟩
    · by_cases hy : y = a
      · subst hy
        simp only [if_true, if_neg hx, true_and]
        exact ⟨fun hx' => hx'.elim (fun hx' => .inl (hback x ((h x y).mp hx') hx)) id, .inr⟩
      · simp only [hx, hy, if_false, false_and, and_false, or_false]
        exact h x y

/-! ## Whose links there are -/

variable {s : Finset ν}

omit [DecidableEq ν] in
theorem within_empty : (empty : TwoWay ν).Within s := by
  intro x y h
  simp [empty] at h

omit [DecidableEq ν] in
theorem Within.swap (h : t.Within s) : t.swap.Within s := fun x y hy => h x y hy.symm

omit [DecidableEq ν] in
/-- What an object is linked to has links. -/
theorem Within.forth_mem (h : t.Within s) (hmutual : t.Mutual) (hy : y ∈ t.forth x) : y ∈ s :=
  h y x (.inr ((hmutual x y).mp hy))

omit [DecidableEq ν] in
theorem Within.back_mem (h : t.Within s) (hmutual : t.Mutual) (hy : y ∈ t.back x) : y ∈ s :=
  h y x (.inl ((hmutual y x).mpr hy))

theorem Within.clear_eq (h : t.Within s) (ha : a ∉ s) : t.clear a = t := by
  have hforth : t.forth a = ∅ := Finset.eq_empty_of_forall_notMem fun y hy => ha (h a y (.inl hy))
  have hback : t.back a = ∅ := Finset.eq_empty_of_forall_notMem fun y hy => ha (h a y (.inr hy))
  rw [clear, ← hforth, Function.update_eq_self, hforth, ← hback, Function.update_eq_self]

omit [DecidableEq ν] in
theorem Within.mono {s' : Finset ν} (h : t.Within s) (hs : s ⊆ s') : t.Within s' :=
  fun x y hy => hs (h x y hy)

theorem Within.link (h : t.Within s) (ha : a ∈ s) (hb : b ∈ s) : (t.link a b).Within s := by
  intro x y hy
  rw [mem_forth_link, mem_back_link] at hy
  rcases hy with (hy | ⟨rfl, -⟩) | hy | ⟨rfl, -⟩
  · exact h x y (.inl hy)
  · exact ha
  · exact h x y (.inr hy)
  · exact hb

theorem Within.unlink (h : t.Within s) (a b : ν) : (t.unlink a b).Within s := by
  intro x y hy
  rw [mem_forth_unlink, mem_back_unlink] at hy
  exact h x y (hy.imp And.left And.left)

theorem Within.copyTo (h : t.Within s) (hmutual : t.Mutual) (ha : a ∈ s) :
    (t.copyTo a b).Within s := by
  intro x y hy
  by_cases hx : x = a
  · exact hx ▸ ha
  · rw [mem_forth_copyTo, mem_back_copyTo, if_neg hx, if_neg hx] at hy
    rcases hy with (hy | ⟨-, hx' | ⟨-, hx'⟩⟩) | hy | ⟨hx', -⟩
    · exact h x y (.inl hy)
    · exact h.back_mem hmutual hx'
    · exact absurd hx' hx
    · exact h x y (.inr hy)
    · exact h.forth_mem hmutual hx'

theorem Within.forget (h : t.Within s) (hmutual : t.Mutual) (a : ν) :
    (t.forget a).Within (s.erase a) := by
  intro x y hy
  rw [mem_forth_forget hmutual, mem_back_forget hmutual] at hy
  rcases hy with ⟨hy, hx, -⟩ | ⟨hy, hx, -⟩
  · exact Finset.mem_erase.mpr ⟨hx, h x y (.inl hy)⟩
  · exact Finset.mem_erase.mpr ⟨hx, h x y (.inr hy)⟩

omit [DecidableEq ν] in
/-- A new object has no links that a copy could erase. -/
theorem Within.covers (h : t.Within s) (ha : a ∉ s) : t.Covers b a :=
  ⟨fun _ hx => absurd (h a _ (.inl hx)) ha, fun _ hx => absurd (h a _ (.inr hx)) ha⟩

end TwoWay

end CentreonBroker
