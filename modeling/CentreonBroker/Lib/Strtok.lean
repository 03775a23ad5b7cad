import Mathlib.Data.List.TakeWhile

/-!
# Splitting by `strtok_r`

Repeated calls to `strtok_r` give the pieces between separators that are not empty, in order. What
an empty piece stood for gets the piece behind it.
-/

namespace CentreonBroker.Strtok

variable {α : Type} (sep : α → Bool)

/-- `strtok_r`: the token, and what is left behind its separator. -/
def strtok (s : List α) : Option (List α × List α) :=
  match s.dropWhile sep with
  | [] => none
  | c :: r => some ((c :: r).takeWhile (!sep ·), ((c :: r).dropWhile (!sep ·)).drop 1)

/-- The pieces that are not empty. -/
def tokens (s : List α) : List (List α) := (s.splitOnP sep).filter (!·.isEmpty)

variable {sep}

theorem tokens_cons {c : α} (hc : sep c) (s : List α) : tokens sep (c :: s) = tokens sep s := by
  have hsplit := List.splitOnP_append_cons_of_forall_mem (p := sep) (List.forall_mem_nil _) c hc s
  rw [List.nil_append] at hsplit
  rw [tokens, hsplit]
  rfl

theorem tokens_append {t : List α} (ht : ∀ c ∈ t, sep c = false) {c : α} (hc : sep c)
    (s : List α) : tokens sep (t ++ c :: s) = [t].filter (!·.isEmpty) ++ tokens sep s := by
  rw [tokens, List.splitOnP_append_cons_of_forall_mem ht c hc, ← List.singleton_append,
    List.filter_append]
  rfl

theorem tokens_single {t : List α} (ht : ∀ c ∈ t, sep c = false) :
    tokens sep t = [t].filter (!·.isEmpty) := by
  rw [tokens, List.splitOnP_eq_singleton ht]

theorem tokens_dropWhile (s : List α) : tokens sep (s.dropWhile sep) = tokens sep s := by
  induction s with
  | nil => rfl
  | cons c s ih =>
    by_cases hc : sep c
    · rw [List.dropWhile_cons_of_pos hc, ih, tokens_cons hc]
    · rw [List.dropWhile_cons_of_neg hc]

/-- **A call gives the first token** and leaves the other ones. -/
theorem strtok_spec (s : List α) :
    (tokens sep s = [] ∧ strtok sep s = none) ∨
      ∃ t r, tokens sep s = t :: tokens sep r ∧ strtok sep s = some (t, r) := by
  rw [← tokens_dropWhile, strtok]
  cases hs : s.dropWhile sep with
  | nil => exact .inl ⟨rfl, rfl⟩
  | cons c r =>
    have hc : ¬ sep c := by
      have hne : s.dropWhile sep ≠ [] := by rw [hs]; exact List.cons_ne_nil c r
      have hhead := List.head_dropWhile_not sep hne
      simpa [hs] using hhead
    refine .inr ⟨_, _, ?_, rfl⟩
    have htoken : ∀ d ∈ (c :: r).takeWhile (!sep ·), sep d = false := fun d hd => by
      simpa using List.mem_takeWhile_imp hd
    have hne : (c :: r).takeWhile (!sep ·) ≠ [] := by simp [hc]
    have hfilter : [(c :: r).takeWhile (!sep ·)].filter (!·.isEmpty) =
        [(c :: r).takeWhile (!sep ·)] := by simp [hne]
    cases hrest : (c :: r).dropWhile (!sep ·) with
    | nil =>
      have hall : (c :: r).takeWhile (!sep ·) = c :: r := by
        simpa [hrest] using List.takeWhile_append_dropWhile (p := (!sep ·)) (l := c :: r)
      rw [hall] at htoken hfilter ⊢
      rw [tokens_single htoken, hfilter]
      rfl
    | cons d r' =>
      have hd : sep d := by
        have hne : (c :: r).dropWhile (!sep ·) ≠ [] := by rw [hrest]; exact List.cons_ne_nil d r'
        have hhead := List.head_dropWhile_not (!sep ·) hne
        simpa [hrest] using hhead
      have hall := List.takeWhile_append_dropWhile (p := (!sep ·)) (l := c :: r)
      rw [hrest] at hall
      have hsplit := tokens_append htoken hd r'
      rw [hall, hfilter] at hsplit
      exact hsplit

theorem of_mem_splitOnP {s t : List α} (h : t ∈ s.splitOnP sep) : ∀ c ∈ t, sep c = false := by
  induction s generalizing t with
  | nil =>
    rw [List.splitOnP_nil, List.mem_singleton] at h
    rw [h]
    exact List.forall_mem_nil _
  | cons c s ih =>
    rw [List.splitOnP_cons_eq_if_modifyHead] at h
    by_cases hc : sep c
    · rw [if_pos hc] at h
      rcases List.mem_cons.mp h with rfl | h
      · exact List.forall_mem_nil _
      · exact ih h
    · rw [if_neg hc] at h
      cases hs : s.splitOnP sep with
      | nil => simp [hs] at h
      | cons u us =>
        rw [hs] at ih
        rw [hs, List.modifyHead_cons] at h
        rcases List.mem_cons.mp h with rfl | h
        · exact List.forall_mem_cons.mpr ⟨by simpa using hc, ih List.mem_cons_self⟩
        · exact ih (List.mem_cons_of_mem u h)

/-- No token has a separator, and none is empty. -/
theorem of_mem_tokens {s t : List α} (h : t ∈ tokens sep s) :
    t ≠ [] ∧ ∀ c ∈ t, sep c = false := by
  obtain ⟨hmem, hne⟩ := List.mem_filter.mp h
  exact ⟨by simpa using hne, of_mem_splitOnP hmem⟩

end CentreonBroker.Strtok
