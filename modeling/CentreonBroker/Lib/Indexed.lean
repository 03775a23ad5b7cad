import Mathlib.Data.List.Count
import Mathlib.Data.List.Nodup
import Mathlib.Logic.Function.Basic

/-!
# A store with an index

A store has at most one value for a key, and an index has the keys of the values under another of
their attributes. The store keeps the value that came first; the index takes whatever it is given.
-/

namespace CentreonBroker

/-- The values, which know their keys, and the entries of the index. -/
structure Indexed {α κ : Type} (key : α → κ) (ν : Type) where
  stored : κ → Option α
  keyed : ∀ {k a}, stored k = some a → key a = k
  index : List (ν × κ)

namespace Indexed

variable {α κ ν : Type} {key : α → κ}

def empty : Indexed key ν := ⟨fun _ => none, nofun, []⟩

variable [DecidableEq κ] [DecidableEq ν]

/-- A value is added where there is none with its key, an entry is added in any case. -/
def insert (t : Indexed key ν) (attr : α → ν) (a : α) : Indexed key ν where
  stored := if t.stored (key a) = none then Function.update t.stored (key a) (some a) else t.stored
  keyed := by
    intro k b hb
    split at hb
    · by_cases hk : k = key a
      · rw [hk, Function.update_self, Option.some.injEq] at hb
        rw [hk, hb]
      · rw [Function.update_of_ne hk] at hb
        exact t.keyed hb
    · exact t.keyed hb
  index := t.index ++ [(attr a, key a)]

/-- The value with a key is removed, and one of the entries for it under an attribute. -/
def erase (t : Indexed key ν) (n : ν) (k : κ) : Indexed key ν where
  stored := Function.update t.stored k none
  keyed := by
    intro j b hb
    by_cases hj : j = k
    · rw [hj, Function.update_self] at hb
      cases hb
    · rw [Function.update_of_ne hj] at hb
      exact t.keyed hb
  index := t.index.erase (n, k)

/-- The values that the index has under an attribute. A key that has no value is an error. -/
def atAttr (t : Indexed key ν) (n : ν) : Option (List α) :=
  (t.index.filter (·.1 = n)).mapM fun e => t.stored e.2

/-- The index has one entry for each value, under its attribute, and no other one. -/
def Matches (t : Indexed key ν) (attr : α → ν) : Prop :=
  ∀ n k, t.index.count (n, k) = if (t.stored k).map attr = some n then 1 else 0

variable {t : Indexed key ν} {attr : α → ν} {a : α} {n : ν} {k : κ}

theorem matches_empty : (empty : Indexed key ν).Matches attr := fun _ _ => rfl

theorem count_insert_self : (t.insert attr a).index.count (attr a, key a) =
    t.index.count (attr a, key a) + 1 := by
  rw [insert, List.count_append, List.count_singleton_self]

theorem count_insert_of_ne (h : (attr a, key a) ≠ (n, k)) :
    (t.insert attr a).index.count (n, k) = t.index.count (n, k) := by
  have hnew : [(attr a, key a)].count (n, k) = 0 :=
    List.count_eq_zero.mpr fun hmem => h (List.mem_singleton.mp hmem).symm
  rw [insert, List.count_append, hnew, Nat.add_zero]

theorem count_erase_self : (t.erase n k).index.count (n, k) = t.index.count (n, k) - 1 :=
  List.count_erase_self

theorem count_erase_of_ne {m : ν} {j : κ} (h : (m, j) ≠ (n, k)) :
    (t.erase n k).index.count (m, j) = t.index.count (m, j) :=
  List.count_erase_of_ne h

omit [DecidableEq ν] in
theorem stored_insert (h : t.stored (key a) = none) :
    (t.insert attr a).stored = Function.update t.stored (key a) (some a) := if_pos h

omit [DecidableEq ν] in
theorem stored_insert_of_ne (h : t.stored (key a) ≠ none) : (t.insert attr a).stored = t.stored :=
  if_neg h

theorem stored_erase_self : (t.erase n k).stored k = none := Function.update_self _ _ _

theorem stored_erase_of_ne {j : κ} (h : j ≠ k) : (t.erase n k).stored j = t.stored j :=
  Function.update_of_ne h _ _

theorem Matches.count_eq_one (h : t.Matches attr) (ha : t.stored k = some a) :
    t.index.count (attr a, k) = 1 := by
  rw [h, ha, Option.map_some, if_pos rfl]

theorem Matches.count_eq_zero (h : t.Matches attr) (hne : ∀ a, t.stored k = some a → attr a ≠ n) :
    t.index.count (n, k) = 0 := by
  rw [h, if_neg]
  intro hmap
  obtain ⟨a, ha, hattr⟩ := Option.map_eq_some_iff.mp hmap
  exact hne a ha hattr

theorem Matches.nodup_index (h : t.Matches attr) : t.index.Nodup := by
  refine List.nodup_iff_count_le_one.mpr ?_
  rintro ⟨n, k⟩
  rw [h n k]
  split <;> omega

theorem matches_of_count
    (hone : ∀ k a, t.stored k = some a → t.index.count (attr a, k) = 1)
    (hzero : ∀ n k, (∀ a, t.stored k = some a → attr a ≠ n) → t.index.count (n, k) = 0) :
    t.Matches attr := by
  intro n k
  split
  · rename_i hmap
    obtain ⟨a, ha, rfl⟩ := Option.map_eq_some_iff.mp hmap
    exact hone k a ha
  · rename_i hmap
    exact hzero n k fun a ha hattr => hmap (Option.map_eq_some_iff.mpr ⟨a, ha, hattr⟩)

/-- To add a value keeps the index right exactly when there is none with its key. -/
theorem matches_insert_iff (h : t.Matches attr) :
    (t.insert attr a).Matches attr ↔ t.stored (key a) = none := by
  constructor
  · intro h'
    by_contra hne
    have hstored : (t.insert attr a).stored = t.stored := stored_insert_of_ne hne
    obtain ⟨b, hb⟩ := Option.ne_none_iff_exists'.mp hne
    by_cases hattr : attr b = attr a
    · have hold := h.count_eq_one hb
      have hnew := h'.count_eq_one (hstored ▸ hb)
      rw [hattr] at hold hnew
      rw [count_insert_self] at hnew
      omega
    · have hnew := h'.count_eq_zero (n := attr a) (k := key a) fun c hc => by
        rw [hstored, hb, Option.some.injEq] at hc
        rwa [← hc]
      rw [count_insert_self] at hnew
      omega
  · intro hnone
    refine matches_of_count ?_ ?_
    · intro k b hb
      rw [stored_insert hnone] at hb
      by_cases hk : k = key a
      · rw [hk, Function.update_self, Option.some.injEq] at hb
        rw [hk, ← hb, count_insert_self, h.count_eq_zero fun c hc => by rw [hnone] at hc; cases hc]
      · rw [Function.update_of_ne hk] at hb
        rw [count_insert_of_ne fun he => hk (Prod.mk.inj he).2.symm, h.count_eq_one hb]
    · intro n k hne
      rw [stored_insert hnone] at hne
      by_cases hk : k = key a
      · rw [hk] at hne ⊢
        rw [count_insert_of_ne fun he => hne a (Function.update_self _ _ _) (Prod.mk.inj he).1]
        exact h.count_eq_zero fun c hc => by rw [hnone] at hc; cases hc
      · rw [Function.update_of_ne hk] at hne
        rw [count_insert_of_ne fun he => hk (Prod.mk.inj he).2.symm, h.count_eq_zero hne]

/-- To remove a value keeps the index right exactly when that is done under its attribute. -/
theorem matches_erase_iff (h : t.Matches attr) :
    (t.erase n k).Matches attr ↔ ∀ a, t.stored k = some a → attr a = n := by
  constructor
  · intro h' a ha
    by_contra hne
    have hnew := h'.count_eq_zero (n := attr a) (k := k) fun b hb => by
      rw [stored_erase_self] at hb
      cases hb
    rw [count_erase_of_ne fun he => hne (Prod.mk.inj he).1, h.count_eq_one ha] at hnew
    cases hnew
  · intro hattr
    refine matches_of_count ?_ ?_
    · intro j b hb
      have hj : j ≠ k := by
        rintro rfl
        rw [stored_erase_self] at hb
        cases hb
      rw [stored_erase_of_ne hj] at hb
      rw [count_erase_of_ne fun he => hj (Prod.mk.inj he).2, h.count_eq_one hb]
    · intro m j hne
      by_cases hj : j = k
      · by_cases hm : m = n
        · have hle := List.nodup_iff_count_le_one.mp h.nodup_index (n, k)
          rw [hj, hm, count_erase_self]
          omega
        · rw [hj, count_erase_of_ne fun he => hm (Prod.mk.inj he).1]
          exact h.count_eq_zero fun a ha he => hm (he.symm.trans (hattr a ha))
      · rw [stored_erase_of_ne hj] at hne
        rw [count_erase_of_ne fun he => hj (Prod.mk.inj he).2, h.count_eq_zero hne]

/-! ## Reading by the attribute -/

theorem Matches.mem_index_iff (h : t.Matches attr) :
    (n, k) ∈ t.index ↔ ∃ a, t.stored k = some a ∧ attr a = n := by
  rw [← List.count_pos_iff, h n k, ← Option.map_eq_some_iff]
  split
  · rename_i hmap
    exact iff_of_true Nat.one_pos hmap
  · rename_i hmap
    exact iff_of_false (Nat.lt_irrefl 0) hmap

omit [DecidableEq κ] [DecidableEq ν] in
/-- Where each entry has a value, the values are read in the order of the entries. -/
theorem exists_mapM {es : List (ν × κ)} (h : ∀ e ∈ es, ∃ a, t.stored e.2 = some a) :
    ∃ l, es.mapM (fun e => t.stored e.2) = some l ∧ l.map key = es.map Prod.snd ∧
      ∀ a ∈ l, t.stored (key a) = some a := by
  induction es with
  | nil => exact ⟨[], rfl, rfl, by simp⟩
  | cons e es ih =>
    obtain ⟨a, ha⟩ := h e List.mem_cons_self
    obtain ⟨l, hl, hkeys, hstored⟩ := ih fun e' he' => h e' (List.mem_cons_of_mem e he')
    refine ⟨a :: l, by simp [hl, ha], ?_, ?_⟩
    · rw [List.map_cons, List.map_cons, hkeys, t.keyed ha]
    · intro b hb
      rcases List.mem_cons.mp hb with rfl | hb
      · rwa [t.keyed ha]
      · exact hstored b hb

/-- While the index is right, what is read under an attribute are the values that have it, each
once. -/
theorem Matches.atAttr (h : t.Matches attr) (n : ν) :
    ∃ l, t.atAttr n = some l ∧ l.Nodup ∧
      ∀ a, a ∈ l ↔ t.stored (key a) = some a ∧ attr a = n := by
  have hentry : ∀ e ∈ t.index.filter (·.1 = n), ∃ a, t.stored e.2 = some a ∧ attr a = n := by
    rintro ⟨m, k⟩ he
    obtain ⟨hmem, hm⟩ := List.mem_filter.mp he
    obtain ⟨a, ha, hattr⟩ := h.mem_index_iff.mp hmem
    exact ⟨a, ha, hattr.trans (of_decide_eq_true hm)⟩
  obtain ⟨l, hl, hkeys, hstored⟩ := exists_mapM fun e he => (hentry e he).imp fun _ => And.left
  refine ⟨l, hl, ?_, fun a => ⟨fun ha => ⟨hstored a ha, ?_⟩, ?_⟩⟩
  · refine List.Nodup.of_map key ?_
    rw [hkeys]
    refine (h.nodup_index.filter _).map_on ?_
    rintro ⟨m, k⟩ he ⟨m', k'⟩ he' (rfl : k = k')
    have hm : m = n := of_decide_eq_true (List.mem_filter.mp he).2
    have hm' : m' = n := of_decide_eq_true (List.mem_filter.mp he').2
    rw [hm, hm']
  · have hkey : key a ∈ (t.index.filter (·.1 = n)).map Prod.snd := hkeys ▸ List.mem_map_of_mem ha
    obtain ⟨e, he, hek⟩ := List.mem_map.mp hkey
    obtain ⟨b, hb, hattr⟩ := hentry e he
    rw [hek, hstored a ha, Option.some.injEq] at hb
    rwa [hb]
  · rintro ⟨ha, hattr⟩
    have hmem : (n, key a) ∈ t.index.filter (·.1 = n) :=
      List.mem_filter.mpr ⟨h.mem_index_iff.mpr ⟨a, ha, hattr⟩, decide_eq_true rfl⟩
    have hkey : key a ∈ l.map key := hkeys ▸ List.mem_map_of_mem (f := Prod.snd) hmem
    obtain ⟨b, hb, hbk⟩ := List.mem_map.mp hkey
    have hsame := hstored b hb
    rw [hbk, ha, Option.some.injEq] at hsame
    rwa [hsame]

end Indexed

end CentreonBroker
