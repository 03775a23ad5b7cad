import CentreonBroker.Database.Statement
import CentreonBroker.Lib.Entries

/-!
# The positions of named parameters

A name that occurs once is in the mapping itself. At its second occurrence it is replaced by two
keys with a digit behind the name, so that a third occurrence is taken for a first one, and a name
of the text with such a digit for one of the two keys.
-/

namespace CentreonBroker.Database

/-! ## The mapping -/

namespace BindMapping

variable {m : BindMapping} {key : List Char}

theorem lookup_insert_absent (h : m.lookup key = none) (value : ℕ) (k : List Char) :
    (insertNew m key value).lookup k = if k = key then some value else m.lookup k := by
  rw [insertNew, if_neg (AList.lookup_eq_none.mp h), Entries.lookup_insert]

theorem length_insert_absent (h : m.lookup key = none) (value : ℕ) :
    (insertNew m key value).entries.length = m.entries.length + 1 := by
  have hmem := AList.lookup_eq_none.mp h
  rw [insertNew, if_neg hmem, AList.entries_insert_of_notMem hmem]
  rfl

theorem length_erase {value : ℕ} (h : m.lookup key = some value) :
    m.entries.length = (m.erase key).entries.length + 1 :=
  (Entries.perm_of_lookup h).length_eq

end BindMapping

/-! ## Positions -/

section Positions

variable {α : Type} [DecidableEq α]

/-- Where a key is in a list. -/
def positions (keys : List α) (k : α) : List ℕ :=
  (List.range keys.length).filter fun i => keys[i]? = some k

variable {keys : List α}

theorem mem_positions {k : α} {i : ℕ} :
    i ∈ positions keys k ↔ keys[i]? = some k := by
  rw [positions, List.mem_filter, List.mem_range]
  refine ⟨fun h => by simpa using h.2, fun h => ⟨?_, by simpa using h⟩⟩
  exact (List.getElem?_eq_some_iff.mp h).1

theorem positions_concat (keys : List α) (key k : α) :
    positions (keys ++ [key]) k =
      positions keys k ++ if key = k then [keys.length] else [] := by
  rw [positions, List.length_append, List.length_singleton, List.range_succ, List.filter_append]
  congr 1
  · refine List.filter_congr fun i hi => ?_
    rw [List.getElem?_append_left (List.mem_range.mp hi)]
  · by_cases hk : key = k <;> simp [hk]

theorem mem_of_positions {k : α} {i : ℕ}
    (h : i ∈ positions keys k) : k ∈ keys := List.mem_of_getElem? (mem_positions.mp h)

variable [BEq α] [LawfulBEq α]

theorem length_positions (keys : List α) (k : α) :
    (positions keys k).length = keys.count k := by
  induction keys using List.reverseRecOn with
  | nil => rfl
  | append_singleton keys key ih =>
    rw [positions_concat, List.length_append, ih, List.count_append]
    by_cases hk : key = k <;> simp [hk]

/-- As many as there are in a list that has them all. -/
theorem count_le_of_positions {k : α} {l : List ℕ}
    (h : ∀ i, keys[i]? = some k → i ∈ l) : keys.count k ≤ l.length := by
  rw [← length_positions]
  have hnodup : (positions keys k).Nodup := List.nodup_range.filter _
  exact (hnodup.subperm fun i hi => h i (mem_positions.mp hi)).length_le

end Positions

/-- No third occurrence, and no name that is like a key of the mapping. -/
def Apart (keys : List (List Char)) : Prop :=
  ∀ k ∈ keys, keys.count k ≤ 2 ∧
    (keys.count k = 2 → k ++ ['1'] ∉ keys ∧ k ++ ['2'] ∉ keys)

/-- What the mapping has for the names so far. -/
structure Mapped (pre : List (List Char)) (m : BindMapping) : Prop where
  one : ∀ k i, positions pre k = [i] → m.lookup k = some i
  two : ∀ k i j, positions pre k = [i, j] →
    m.lookup k = none ∧ m.lookup (k ++ ['1']) = some i ∧ m.lookup (k ++ ['2']) = some j
  only : ∀ k, m.lookup k ≠ none → (∃ i, positions pre k = [i]) ∨
    ∃ k' i j, positions pre k' = [i, j] ∧ (k = k' ++ ['1'] ∨ k = k' ++ ['2'])
  length : m.entries.length = pre.length

theorem mapped_nil : Mapped [] ∅ where
  one := fun _ _ h => nomatch h
  two := fun _ _ _ h => nomatch h
  only := fun _ h => absurd rfl h
  length := rfl

variable {k : List Char}

theorem digit_inj {k' : List Char} {c d : Char} (h : k ++ [c] = k' ++ [d]) :
    k = k' ∧ c = d := by
  obtain ⟨hk, hc⟩ := List.append_inj' h rfl
  exact ⟨hk, List.singleton_inj.mp hc⟩

theorem ne_digit (k : List Char) (c : Char) : k ≠ k ++ [c] := by simp

variable {pre : List (List Char)}

/-- What the list says of a name that the mapping has two keys for. -/
theorem Apart.of_two {post : List (List Char)} {key : List Char} {i j : ℕ}
    (h : Apart (pre ++ key :: post)) (hk : positions pre k = [i, j]) :
    key ≠ k ∧ key ≠ k ++ ['1'] ∧ key ≠ k ++ ['2'] := by
  have hcount : pre.count k = 2 := by rw [← length_positions, hk]; rfl
  have hmem : k ∈ pre ++ key :: post :=
    List.mem_append_left _ (mem_of_positions (i := i) (by simp [hk]))
  obtain ⟨hle, hdigit⟩ := h k hmem
  have hkey : key ∈ pre ++ key :: post := by simp
  rw [List.count_append, List.count_cons, hcount] at hle hdigit
  have hne : key ≠ k := by
    rintro rfl
    simp at hle
  have htwo : 2 + (post.count k + if (key == k) = true then 1 else 0) = 2 := by omega
  obtain ⟨hone, htwo⟩ := hdigit htwo
  exact ⟨hne, fun he => hone (he ▸ hkey), fun he => htwo (he ▸ hkey)⟩

theorem Mapped.addName_first {post : List (List Char)} {key : List Char} {m : BindMapping}
    (h : Mapped pre m) (hapart : Apart (pre ++ key :: post)) (hkey : positions pre key = []) :
    Mapped (pre ++ [key]) (addName m key pre.length) := by
  have hnone : m.lookup key = none := by
    by_contra hsome
    rcases h.only key hsome with ⟨i, hi⟩ | ⟨k, i, j, hk, hdigit⟩
    · rw [hkey] at hi
      cases hi
    · obtain ⟨-, hone, htwo⟩ := hapart.of_two hk
      exact hdigit.elim hone htwo
  have hadd : addName m key pre.length = insertNew m key pre.length := by
    rw [addName, hnone]
  have hlookup := BindMapping.lookup_insert_absent hnone pre.length
  rw [hadd]
  refine ⟨fun k i hk => ?_, fun k i j hk => ?_, fun k hk => ?_, ?_⟩
  · rw [positions_concat] at hk
    rw [hlookup]
    by_cases hkk : key = k
    · subst hkk
      rw [hkey] at hk
      simpa using hk
    · rw [if_neg (Ne.symm hkk)]
      exact h.one k i (by simpa [hkk] using hk)
  · rw [positions_concat] at hk
    by_cases hkk : key = k
    · subst hkk
      simp [hkey] at hk
    · have hk' : positions pre k = [i, j] := by simpa [hkk] using hk
      obtain ⟨-, hone, htwo⟩ := hapart.of_two hk'
      rw [hlookup, hlookup, hlookup, if_neg (Ne.symm hkk), if_neg (Ne.symm hone),
        if_neg (Ne.symm htwo)]
      exact h.two k i j hk'
  · rw [hlookup] at hk
    by_cases hkk : k = key
    · subst hkk
      exact .inl ⟨pre.length, by simp [positions_concat, hkey]⟩
    · rw [if_neg hkk] at hk
      refine (h.only k hk).imp (fun ⟨i, hi⟩ => ⟨i, ?_⟩) fun ⟨k', i, j, hk', hdigit⟩ =>
        ⟨k', i, j, ?_, hdigit⟩
      · simpa [positions_concat, Ne.symm hkk] using hi
      · have hne := (hapart.of_two hk').1
        simpa [positions_concat, hne] using hk'
  · rw [BindMapping.length_insert_absent hnone, h.length]
    simp

theorem Mapped.addName_second {post : List (List Char)} {key : List Char} {m : BindMapping}
    {p : ℕ} (h : Mapped pre m) (hapart : Apart (pre ++ key :: post))
    (hkey : positions pre key = [p]) : Mapped (pre ++ [key]) (addName m key pre.length) := by
  -- the keys with a digit are new
  have hnew : key ++ ['1'] ∉ pre ++ key :: post ∧ key ++ ['2'] ∉ pre ++ key :: post := by
    obtain ⟨hle, hdigit⟩ := hapart key (by simp)
    have hcount : pre.count key = 1 := by rw [← length_positions, hkey]; rfl
    rw [List.count_append, List.count_cons_self, hcount] at hle hdigit
    exact hdigit (by omega)
  have hnone : ∀ c, (c = '1' ∨ c = '2') → m.lookup (key ++ [c]) = none := by
    intro c hc
    by_contra hsome
    rcases h.only _ hsome with ⟨i, hi⟩ | ⟨k, i, j, hk, hdigit⟩
    · have hmem := List.mem_append_left (key :: post)
        (mem_of_positions (k := key ++ [c]) (hi ▸ List.mem_singleton_self i))
      rcases hc with rfl | rfl
      · exact hnew.1 hmem
      · exact hnew.2 hmem
    · have hne := (hapart.of_two hk).1
      rcases hdigit with hdigit | hdigit <;> exact hne (digit_inj hdigit).1
  have hadd : addName m key pre.length =
      insertNew (insertNew (m.erase key) (key ++ ['1']) p) (key ++ ['2']) pre.length := by
    rw [addName, h.one key p hkey]
  have hfirst : (m.erase key).lookup (key ++ ['1']) = none := by
    rw [Entries.lookup_erase, if_neg (ne_digit key '1').symm, hnone _ (.inl rfl)]
  have hsecond : (insertNew (m.erase key) (key ++ ['1']) p).lookup (key ++ ['2']) = none := by
    rw [BindMapping.lookup_insert_absent hfirst, if_neg (fun he => by cases (digit_inj he).2),
      Entries.lookup_erase, if_neg (ne_digit key '2').symm, hnone _ (.inr rfl)]
  have hlookup : ∀ k, (addName m key pre.length).lookup k =
      if k = key ++ ['2'] then some pre.length
      else if k = key ++ ['1'] then some p
      else if k = key then none else m.lookup k := fun k => by
    rw [hadd, BindMapping.lookup_insert_absent hsecond, BindMapping.lookup_insert_absent hfirst,
      Entries.lookup_erase]
  have hother : ∀ k, k ≠ key ++ ['2'] → k ≠ key ++ ['1'] → k ≠ key →
      (addName m key pre.length).lookup k = m.lookup k := fun k htwo hone hne => by
    rw [hlookup, if_neg htwo, if_neg hone, if_neg hne]
  have hmem : ∀ {k i}, i ∈ positions pre k → k ≠ key ++ ['2'] ∧ k ≠ key ++ ['1'] := fun hi => by
    have hk := List.mem_append_left (key :: post) (mem_of_positions hi)
    exact ⟨fun he => hnew.2 (he ▸ hk), fun he => hnew.1 (he ▸ hk)⟩
  refine ⟨fun k i hk => ?_, fun k i j hk => ?_, fun k hk => ?_, ?_⟩
  · rw [positions_concat] at hk
    by_cases hkk : key = k
    · subst hkk
      simp [hkey] at hk
    · have hk' : positions pre k = [i] := by simpa [hkk] using hk
      obtain ⟨htwo, hone⟩ := hmem (hk' ▸ List.mem_singleton_self i)
      rw [hother k htwo hone (Ne.symm hkk)]
      exact h.one k i hk'
  · rw [positions_concat] at hk
    by_cases hkk : key = k
    · subst hkk
      rw [hkey] at hk
      simp only [if_pos, List.singleton_append, List.cons.injEq, and_true] at hk
      obtain ⟨rfl, rfl⟩ := hk
      have hdigit : key ++ ['1'] ≠ key ++ ['2'] := fun he => absurd (digit_inj he).2 (by decide)
      refine ⟨?_, ?_, ?_⟩
      · rw [hlookup, if_neg (ne_digit key '2'), if_neg (ne_digit key '1'), if_pos rfl]
      · rw [hlookup, if_neg hdigit, if_pos rfl]
      · rw [hlookup, if_pos rfl]
    · have hk' : positions pre k = [i, j] := by simpa [hkk] using hk
      obtain ⟨htwo, hone⟩ := hmem (hk' ▸ List.mem_cons_self)
      obtain ⟨-, hone', htwo'⟩ := hapart.of_two hk'
      have hdigit : ∀ c d, k ++ [c] ≠ key ++ [d] := fun c d he => hkk (digit_inj he).1.symm
      rw [hother k htwo hone (Ne.symm hkk), hother _ (hdigit _ _) (hdigit _ _) (Ne.symm hone'),
        hother _ (hdigit _ _) (hdigit _ _) (Ne.symm htwo')]
      exact h.two k i j hk'
  · have hboth : positions (pre ++ [key]) key = [p, pre.length] := by
      rw [positions_concat, hkey, if_pos rfl]
      rfl
    rw [hlookup] at hk
    by_cases htwo : k = key ++ ['2']
    · exact .inr ⟨key, p, pre.length, hboth, .inr htwo⟩
    · by_cases hone : k = key ++ ['1']
      · exact .inr ⟨key, p, pre.length, hboth, .inl hone⟩
      · rw [if_neg htwo, if_neg hone] at hk
        have hkk : key ≠ k := fun he => hk (if_pos he.symm)
        rw [if_neg (Ne.symm hkk)] at hk
        refine (h.only k hk).imp (fun ⟨i, hi⟩ => ⟨i, ?_⟩) fun ⟨k', i, j, hk', hdigit⟩ =>
          ⟨k', i, j, ?_, hdigit⟩
        · simpa [positions_concat, hkk] using hi
        · simpa [positions_concat, (hapart.of_two hk').1] using hk'
  · rw [hadd, BindMapping.length_insert_absent hsecond, BindMapping.length_insert_absent hfirst,
      ← BindMapping.length_erase (h.one key p hkey), h.length]
    simp

theorem Mapped.addNames {post : List (List Char)} {m : BindMapping} (h : Mapped pre m)
    (hapart : Apart (pre ++ post)) : Mapped (pre ++ post) (addNames m post pre.length) := by
  induction post generalizing pre m with
  | nil => rwa [List.append_nil]
  | cons key post ih =>
    have hnext : Mapped (pre ++ [key]) (addName m key pre.length) := by
      have hlength : (positions pre key).length ≤ 1 := by
        have hle := (hapart key (by simp)).1
        rw [List.count_append, List.count_cons_self] at hle
        rw [length_positions]
        omega
      match hkey : positions pre key with
      | [] => exact h.addName_first hapart hkey
      | [p] => exact h.addName_second hapart hkey
      | _ :: _ :: _ => simp [hkey] at hlength
    have hrest := ih hnext (by simpa using hapart)
    simpa [CentreonBroker.Database.addNames] using hrest

/-- What the functions that bind by name do with this mapping. -/
theorem Mapped.bindByName {keys : List (List Char)} {s : Stmt} (h : Mapped keys s.bindMapping)
    (hapart : Apart keys) (hk : k ∈ keys) : s.bindByName k = positions keys k := by
  have hle := (hapart k hk).1
  have hpos : 0 < (positions keys k).length := by
    rw [length_positions]
    exact List.count_pos_iff.mpr hk
  rw [← length_positions] at hle
  unfold Stmt.bindByName
  match hkey : positions keys k with
  | [] => simp [hkey] at hpos
  | [i] => rw [h.one k i hkey]
  | [i, j] =>
    obtain ⟨hsame, hone, htwo⟩ := h.two k i j hkey
    rw [hsame, hone, htwo]
    rfl
  | _ :: _ :: _ :: _ => simp [hkey] at hle

/-! ## The constructors -/

/-- The marks of the text that is prepared: none for one of the query itself, and the name of each
other one. -/
def slots (text : List Char) : List (Option (List Char)) :=
  (tokens text).filterMap fun
    | .name key => some (some key)
    | .plain c => if c = '?' then some none else none
    | _ => none

/-- What the named constructor is for. -/
structure Stmt.Right (text : List Char) (s : Stmt) : Prop where
  query : s.query = replaced text
  count : s.paramCount = marks s.query
  binds : ∀ name ∈ names text, ∀ i, i ∈ s.bindByName name ↔ (slots text)[i]? = some (some name)

/-- The texts that it does that for. -/
structure Regular (text : List Char) : Prop where
  /-- No string is cut off behind a backslash. -/
  whole : (tokens text).all Token.isWhole = true
  /-- Behind each colon there is a name. -/
  named : [':'] ∉ names text
  /-- The query has no marks of its own. -/
  unmarked : marks text = 0
  apart : Apart (names text)

theorem named_eq (text : List Char) (h : (tokens text).all Token.isWhole = true) :
    Stmt.named text = some
      { query := coded text
        bindMapping := addNames ∅ (names text) 0
        paramCount := (addNames ∅ (names text) 0).entries.length } := by
  have hloop := namedLoop_eq [] ∅ 0 text
  rw [if_pos h] at hloop
  obtain ⟨n, hn, hpair⟩ := Option.map_eq_some_iff.mp hloop
  obtain ⟨hq, hm⟩ := Prod.mk.inj hpair
  rw [Stmt.named, hn, Option.map_some, hq, hm]
  rfl

variable {text : List Char}

theorem slots_eq_map (h : marks text = 0) :
    slots text = (names text).map some := by
  rw [marks, List.count_eq_zero] at h
  rw [slots, names, List.map_filterMap]
  refine List.filterMap_congr fun t ht => ?_
  cases t with
  | plain c =>
    have hc : c ≠ '?' := fun hc => h (by rwa [← hc])
    exact if_neg hc
  | _ => rfl

theorem count_slots (text : List Char) (k : List Char) :
    (slots text).count (some k) = (names text).count k := by
  rw [slots, names]
  induction tokens text with
  | nil => rfl
  | cons t ts ih =>
    rw [List.filterMap_cons, List.filterMap_cons]
    cases t with
    | plain c => by_cases hc : c = '?' <;> simpa [hc] using ih
    | name key => simpa [List.count_cons] using ih
    | string => exact ih

/-- A name is bound at two positions at most, and then under the two keys. -/
theorem Stmt.Right.apart {s : Stmt} (h : s.Right text) :
    Apart (names text) := by
  intro k hk
  have hle := count_le_of_positions fun i hi => (h.binds k hk i).mpr hi
  rw [count_slots] at hle
  have hother : ∀ {c : Char} {p : ℕ}, s.bindMapping.lookup (k ++ [c]) = some p →
      p ∈ s.bindByName k → k ++ [c] ∉ names text := by
    intro c p hlookup hp hmem
    have hbind : p ∈ s.bindByName (k ++ [c]) := by
      rw [Stmt.bindByName, hlookup]
      exact List.mem_singleton_self p
    have hslot := ((h.binds _ hmem p).mp hbind).symm.trans ((h.binds k hk p).mp hp)
    exact ne_digit k c (Option.some.inj (Option.some.inj hslot)).symm
  unfold Stmt.bindByName at hle hother
  split at hle
  · refine ⟨Nat.le_succ_of_le hle, fun htwo => ?_⟩
    rw [htwo] at hle
    simp at hle
  · rename_i hsame
    rw [hsame] at hother
    split at hle
    · refine ⟨Nat.le_trans hle (by decide), fun htwo => ?_⟩
      rw [htwo] at hle
      exact absurd hle (by decide)
    · rename_i p hone
      rw [hone] at hother
      cases hlookup : s.bindMapping.lookup (k ++ ['2']) with
      | none =>
        rw [hlookup] at hle
        refine ⟨Nat.le_succ_of_le hle, fun htwo => ?_⟩
        rw [htwo] at hle
        simp at hle
      | some p' =>
        rw [hlookup] at hle hother
        exact ⟨hle, fun _ => ⟨hother hone (by simp), hother hlookup (by simp)⟩⟩

theorem Regular.right (h : Regular text) :
    ∃ s, Stmt.named text = some s ∧ s.Right text ∧ s.query = coded text := by
  have hmapped := @Mapped.addNames [] (names text) ∅ mapped_nil h.apart
  refine ⟨_, named_eq text h.whole, ⟨?_, ?_, fun k hk i => ?_⟩, rfl⟩
  · exact (coded_eq_replaced_iff text).mpr h.named
  · show (addNames ∅ (names text) 0).entries.length = marks (coded text)
    rw [marks_coded, h.unmarked, Nat.zero_add]
    exact hmapped.length
  · rw [Mapped.bindByName hmapped h.apart hk, mem_positions, slots_eq_map h.unmarked,
      List.getElem?_map]
    simp

/-- **Named parameters** are right in exactly these texts; and the unnamed constructor agrees where
no string has the other quote in it. -/
theorem named_right_iff (text : List Char) :
    ((∃ s, Stmt.named text = some s ∧ s.Right text) ↔ Regular text) ∧
      (Regular text ∧ (tokens text).all Token.isClean = true →
        ∃ s, Stmt.named text = some s ∧ s.Right text ∧
          (Stmt.unnamed s.query).paramCount = marks s.query) := by
  refine ⟨⟨?_, fun h => ?_⟩, ?_⟩
  · rintro ⟨s, hs, hright⟩
    have hwhole : (tokens text).all Token.isWhole = true := by
      by_contra hnot
      have hloop := namedLoop_eq [] ∅ 0 text
      rw [if_neg hnot, Option.map_eq_none_iff] at hloop
      rw [Stmt.named, hloop] at hs
      cases hs
    rw [named_eq text hwhole] at hs
    cases hs
    have hmapped := @Mapped.addNames [] (names text) ∅ mapped_nil hright.apart
    have hcount : (addNames ∅ (names text) 0).entries.length = marks (coded text) := hright.count
    rw [marks_coded] at hcount
    have hlength : (addNames ∅ (names text) 0).entries.length = (names text).length :=
      hmapped.length
    exact ⟨hwhole, (coded_eq_replaced_iff text).mp hright.query, by omega, hright.apart⟩
  · obtain ⟨s, hs, hright, -⟩ := h.right
    exact ⟨s, hs, hright⟩
  · rintro ⟨h, hclean⟩
    obtain ⟨s, hs, hright, hquery⟩ := h.right
    refine ⟨s, hs, hright, ?_⟩
    show computeParamCount false false s.query = marks s.query
    rw [hquery]
    refine computeParamCount_eq _ ?_
    rw [tokens_coded, List.all_map]
    refine List.all_eq_true.mpr fun t ht => ?_
    have ht' := List.all_eq_true.mp hclean t ht
    cases t with
    | string => exact ht'
    | _ => rfl

/-- A name that occurs twice, another one, and a colon in a string. -/
def twice : List Char := [':', 'a', '\'', ':', '\'', ':', 'd', ':', 'a']

theorem tokens_twice : tokens twice =
    [.name [':', 'a'], .string '\'' [':', '\''], .name [':', 'd'], .name [':', 'a']] := by
  rw [twice, tokens_colon]
  simp [tokens, isQuote, isNameChar, readString]

theorem named_right_iff_one : ∃ s, Stmt.named twice = some s ∧ s.Right twice ∧
    (Stmt.unnamed s.query).paramCount = marks s.query := by
  have hnames : names twice = [[':', 'a'], [':', 'd'], [':', 'a']] := by
    rw [names, tokens_twice]; rfl
  refine (named_right_iff twice).2 ⟨⟨?_, ?_, ?_, ?_⟩, ?_⟩
  · rw [tokens_twice]; rfl
  · rw [hnames]; decide
  · rw [marks, tokens_twice]; rfl
  · rw [hnames]
    simp [Apart]
  · rw [tokens_twice]; rfl

/-- A name that occurs three times. -/
theorem not_named_right : ¬ ∀ text, ∃ s, Stmt.named text = some s ∧ s.Right text ∧
    (Stmt.unnamed s.query).paramCount = marks s.query := by
  intro h
  obtain ⟨s, -, hright, -⟩ := h [':', 'a', ':', 'a', ':', 'a']
  have hnames : names [':', 'a', ':', 'a', ':', 'a'] = List.replicate 3 [':', 'a'] := by
    rw [names, tokens_colon]
    simp [tokens, isNameChar]
  have hapart := hright.apart
  rw [hnames] at hapart
  exact absurd (hapart [':', 'a'] (by simp)).1 (by decide)

end CentreonBroker.Database
