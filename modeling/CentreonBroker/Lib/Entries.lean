import Mathlib

/-!
# The entries of an association list

What `AList` has under a key is one entry, and the rest is the list without the key. So a
fold over the entries that does not mind their order can be split at any key.
-/

namespace CentreonBroker.Entries

variable {K : Type} [DecidableEq K] {V : Type} {s : AList (fun _ : K => V)} {k : K} {v : V}

theorem lookup_insert (s : AList fun _ : K => V) (k : K) (v : V) (k' : K) :
    (s.insert k v).lookup k' = if k' = k then some v else s.lookup k' := by
  split
  · rename_i h
    rw [h, AList.lookup_insert]
  · rename_i h
    rw [AList.lookup_insert_ne h]

theorem lookup_erase (s : AList fun _ : K => V) (k k' : K) :
    (s.erase k).lookup k' = if k' = k then none else s.lookup k' := by
  split
  · rename_i h
    rw [h, AList.lookup_erase]
  · rename_i h
    rw [AList.lookup_erase_ne h]

/-- The entry of a key, and the others. -/
theorem perm_of_lookup (h : s.lookup k = some v) : s.entries.Perm (⟨k, v⟩ :: (s.erase k).entries) := by
  have hmem : ⟨k, v⟩ ∈ s.entries := AList.mem_lookup_iff.mp h
  have hkey : k ∈ s.entries.keys := List.mem_keys_of_mem hmem
  obtain ⟨b, l₁, l₂, -, heq, herase⟩ := List.exists_of_kerase hkey
  have hb : b = v := by
    have hin : ⟨k, b⟩ ∈ s.entries := by rw [heq]; simp
    have hlookup : s.lookup k = some b := AList.mem_lookup_iff.mpr hin
    rw [h] at hlookup
    exact (Option.some.inj hlookup).symm
  show s.entries.Perm (⟨k, v⟩ :: s.entries.kerase k)
  rw [herase, heq, hb]
  exact List.perm_middle

theorem filter_ne_eq_erase (s : AList (fun _ : K => V)) (k : K) :
    (s.entries.filter fun e => e.1 ≠ k) = (s.erase k).entries := by
  by_cases hkey : k ∈ s.entries.keys
  · obtain ⟨b, l₁, l₂, hnot, heq, herase⟩ := List.exists_of_kerase hkey
    show _ = s.entries.kerase k
    have hnodup : s.entries.NodupKeys := s.nodupKeys
    rw [herase, heq]
    rw [heq] at hnodup
    have h₂ : k ∉ l₂.keys := by
      have hperm : (l₁ ++ ⟨k, b⟩ :: l₂).Perm (⟨k, b⟩ :: (l₁ ++ l₂)) := List.perm_middle
      have hcons := (List.perm_nodupKeys hperm).mp hnodup
      have hall := (List.nodupKeys_cons.mp hcons).1
      intro hin
      exact hall (by simp only [List.keys, List.map_append]; exact List.mem_append_right _ hin)
    have hself : ∀ l : List (Sigma fun _ : K => V), k ∉ l.keys →
        (l.filter fun e => e.1 ≠ k) = l := by
      intro l hl
      refine List.filter_eq_self.mpr fun e he => ?_
      exact decide_eq_true fun hek => hl (hek ▸ List.mem_keys_of_mem he)
    rw [List.filter_append, List.filter_cons_of_neg (by simp), hself l₁ hnot, hself l₂ h₂]
  · show _ = s.entries.kerase k
    rw [List.kerase_of_notMem_keys hkey]
    refine List.filter_eq_self.mpr fun e he => ?_
    exact decide_eq_true fun hek => hkey (hek ▸ List.mem_keys_of_mem he)

theorem mem_erase_entries {e : Sigma fun _ : K => V} (h : e ∈ (s.erase k).entries) :
    e ∈ s.entries ∧ e.1 ≠ k := by
  rw [← filter_ne_eq_erase] at h
  exact ⟨(List.mem_filter.mp h).1, of_decide_eq_true (List.mem_filter.mp h).2⟩

end CentreonBroker.Entries
