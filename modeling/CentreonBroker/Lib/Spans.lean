import Mathlib

/-!
# Points of a predicate on a line

The first point of a predicate from a time on, and how many points an interval has. An
interval with no point counts zero, one with nothing else counts its length, and the counts
of two intervals side by side add up.
-/

namespace CentreonBroker.Spans

open Finset

/-- The first point from `t` on is `v`, where -1 says that there is none. -/
def FirstFrom (p : ℤ → Prop) (t v : ℤ) : Prop :=
  (v ≠ -1 → IsLeast {u | t ≤ u ∧ p u} v) ∧ (v = -1 → ∀ u, t ≤ u → ¬ p u)

section First

variable {p q : ℤ → Prop} {t v : ℤ}

theorem FirstFrom.congr (h : FirstFrom p t v) (hpq : ∀ u, t ≤ u → (p u ↔ q u)) :
    FirstFrom q t v := by
  refine ⟨fun hv => ?_, fun hv u hu hq => h.2 hv u hu ((hpq u hu).mpr hq)⟩
  obtain ⟨⟨hle, hp⟩, hleast⟩ := h.1 hv
  exact ⟨⟨hle, (hpq v hle).mp hp⟩, fun u hu => hleast ⟨hu.1, (hpq u hu.1).mpr hu.2⟩⟩

/-- Nothing is a point before the first one. -/
theorem FirstFrom.none_before (h : FirstFrom p t v) (hv : v ≠ -1) {u : ℤ} (htu : t ≤ u)
    (huv : u < v) : ¬ p u := by
  intro hp
  have hle := (h.1 hv).2 ⟨htu, hp⟩
  omega

end First

section Count

variable (p : ℤ → Prop) [DecidablePred p]

/-- How many points there are from `s` on and before `e`. -/
noncomputable def countIn (s e : ℤ) : ℕ := ((Finset.Ico s e).filter p).card

variable {p} {s m e : ℤ}

theorem countIn_add (hsm : s ≤ m) (hme : m ≤ e) : countIn p s m + countIn p m e = countIn p s e := by
  have hdisjoint : Disjoint ((Finset.Ico s m).filter p) ((Finset.Ico m e).filter p) :=
    disjoint_filter_filter (Finset.Ico_disjoint_Ico_consecutive s m e)
  rw [countIn, countIn, ← card_union_of_disjoint hdisjoint, ← filter_union,
    Finset.Ico_union_Ico_eq_Ico hsm hme, countIn]

theorem countIn_eq_zero (h : ∀ u, s ≤ u → u < e → ¬ p u) : countIn p s e = 0 := by
  refine card_eq_zero.mpr (filter_eq_empty_iff.mpr fun u hu => ?_)
  obtain ⟨hsu, hue⟩ := mem_Ico.mp hu
  exact h u hsu hue

theorem countIn_eq_length (h : ∀ u, s ≤ u → u < e → p u) : countIn p s e = (e - s).toNat := by
  have hall : (Finset.Ico s e).filter p = Finset.Ico s e := by
    refine filter_eq_self.mpr fun u hu => ?_
    obtain ⟨hsu, hue⟩ := mem_Ico.mp hu
    exact h u hsu hue
  rw [countIn, hall, Int.card_Ico]

/-- The points of either of two predicates that no point has both of. -/
theorem countIn_or {q r : ℤ → Prop} [DecidablePred q] [DecidablePred r]
    (hor : ∀ u, s ≤ u → u < e → (p u ↔ q u ∨ r u))
    (hboth : ∀ u, s ≤ u → u < e → q u → ¬ r u) : countIn p s e = countIn q s e + countIn r s e := by
  rw [countIn, countIn, countIn, ← card_union_of_disjoint]
  · rw [← filter_or]
    refine congrArg Finset.card (filter_congr fun u hu => ?_)
    obtain ⟨hsu, hue⟩ := mem_Ico.mp hu
    exact hor u hsu hue
  · refine disjoint_filter.mpr fun u hu => ?_
    obtain ⟨hsu, hue⟩ := mem_Ico.mp hu
    exact hboth u hsu hue

theorem countIn_congr {q : ℤ → Prop} [DecidablePred q]
    (h : ∀ u, s ≤ u → u < e → (p u ↔ q u)) : countIn p s e = countIn q s e := by
  refine congrArg Finset.card (filter_congr fun u hu => ?_)
  obtain ⟨hsu, hue⟩ := mem_Ico.mp hu
  exact h u hsu hue

/-- What an interval holds of another one is counted in their common part. -/
theorem countIn_clip {start stop : ℤ} :
    countIn (fun t => p t ∧ start ≤ t ∧ t < stop) s e = countIn p (max s start) (min e stop) := by
  by_cases hle : max s start ≤ min e stop
  · have hs : s ≤ max s start := le_max_left _ _
    have he : min e stop ≤ e := min_le_left _ _
    have hbefore : countIn (fun t => p t ∧ start ≤ t ∧ t < stop) s (max s start) = 0 :=
      countIn_eq_zero fun u hsu hu h => by omega
    have hafter : countIn (fun t => p t ∧ start ≤ t ∧ t < stop) (min e stop) e = 0 :=
      countIn_eq_zero fun u hu hue h => by omega
    rw [← countIn_add hs (hle.trans he), ← countIn_add hle he, hbefore, hafter, Nat.zero_add,
      Nat.add_zero]
    refine countIn_congr fun u hsu hue => ⟨fun h => h.1, fun h => ⟨h, ?_, ?_⟩⟩ <;> omega
  · rw [countIn_eq_zero fun u hsu hue h => by omega, countIn_eq_zero fun u hsu hue => by omega]

theorem countIn_le : countIn p s e ≤ (e - s).toNat := by
  have hle := card_filter_le (Finset.Ico s e) p
  rwa [Int.card_Ico] at hle

/-! ## The points of an interval, from the first one on -/

variable {t v w : ℤ}

theorem countIn_of_none (h : FirstFrom p t v) (hv : v = -1 ∨ e < v) : countIn p t e = 0 := by
  refine countIn_eq_zero fun u htu hue => ?_
  by_cases hne : v = -1
  · exact h.2 hne u htu
  · have hlt := hv.resolve_left hne
    exact h.none_before hne htu (by omega)

theorem countIn_of_first (h : FirstFrom p t v) (hv : v ≠ -1) (hve : v ≤ e) :
    countIn p t e = countIn p v e := by
  have hle : t ≤ v := (h.1 hv).1.1
  have hzero : countIn p t v = 0 := countIn_eq_zero fun u htu huv => h.none_before hv htu huv
  rw [← countIn_add hle hve, hzero, Nat.zero_add]

/-- No end of the points is met. -/
theorem countIn_of_endless (h : FirstFrom (fun u => ¬ p u) v w) (hw : w = -1 ∨ e < w) :
    countIn p v e = (e - v).toNat := by
  refine countIn_eq_length fun u hvu hue => ?_
  by_cases hne : w = -1
  · exact not_not.mp (h.2 hne u hvu)
  · have hlt := hw.resolve_left hne
    exact not_not.mp (h.none_before hne hvu (by omega))

theorem countIn_of_end (h : FirstFrom (fun u => ¬ p u) v w) (hw : w ≠ -1) (hwe : w ≤ e) :
    countIn p v e = (w - v).toNat + countIn p w e := by
  have hle : v ≤ w := (h.1 hw).1.1
  have hall : countIn p v w = (w - v).toNat :=
    countIn_eq_length fun u hvu huw => not_not.mp (h.none_before hw hvu huw)
  rw [← countIn_add hle hwe, hall]

end Count

end CentreonBroker.Spans
