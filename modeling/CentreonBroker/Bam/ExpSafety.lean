import CentreonBroker.Bam.ExpIndices
import Mathlib.Data.List.TakeWhile

/-!
# What the tokenizer reads, and when it ends

Over any calls of `next` on a text: which indices are accessed, how far each call moves, how many
calls there are, and where the empty token comes from that the parser takes for the end.

A backslash behind which there is nothing moves `_next` behind the terminating NUL. Without one, no
access is outside.
-/

namespace CentreonBroker.Bam.IndexTokenizer

open ExpTokenizer (isspace isSpecialChar isDelimiter isRightBrace isSpaceOrRightBrace isKeyword isDouble
  Reading)

/-! ## The last backslash -/

/-- The number of backslashes at the end. -/
def trailing (cs : List Char) : ℕ := (cs.reverse.takeWhile (· = '\\')).length

/-- The last backslash stands for no character: they come in pairs otherwise. -/
def Lone (cs : List Char) : Prop := trailing cs % 2 = 1

instance (cs : List Char) : Decidable (Lone cs) := inferInstanceAs (Decidable (_ = _))

variable {cs : List Char}

theorem trailing_of_all (h : ∀ c ∈ cs, c = '\\') : trailing cs = cs.length := by
  have htake : cs.reverse.takeWhile (· = '\\') = cs.reverse := by
    rw [List.takeWhile_eq_self_iff]
    intro c hc
    exact decide_eq_true (h c (List.mem_reverse.mp hc))
  rw [trailing, htake, List.length_reverse]

theorem trailing_append {pre : List Char} (h : ∃ c ∈ cs, c ≠ '\\') :
    trailing (pre ++ cs) = trailing cs := by
  have hlt : (cs.reverse.takeWhile (· = '\\')).length ≠ cs.reverse.length := by
    intro heq
    obtain ⟨c, hc, hne⟩ := h
    have hall := (List.takeWhile_prefix (fun c : Char => decide (c = '\\'))).eq_of_length heq
    rw [List.takeWhile_eq_self_iff] at hall
    exact hne (of_decide_eq_true (hall c (List.mem_reverse.mpr hc)))
  rw [trailing, List.reverse_append, List.takeWhile_append, if_neg hlt, ← trailing]

theorem trailing_append_of_last {pre : List Char} (h : ∀ c ∈ pre.getLast?, c ≠ '\\') :
    trailing (pre ++ cs) = trailing cs := by
  by_cases hcs : ∃ c ∈ cs, c ≠ '\\'
  · exact trailing_append hcs
  · have hall : ∀ c ∈ cs, c = '\\' := by
      intro c hc
      by_contra hne
      exact hcs ⟨c, hc, hne⟩
    have htake : cs.reverse.takeWhile (· = '\\') = cs.reverse := by
      rw [List.takeWhile_eq_self_iff]
      intro c hc
      exact decide_eq_true (hall c (List.mem_reverse.mp hc))
    have hpre : pre.reverse.takeWhile (· = '\\') = [] := by
      rw [List.takeWhile_eq_nil_iff]
      intro hpos heq
      have hlast : pre.getLast? = some pre.reverse[0] := by
        rw [List.getLast?_eq_head?_reverse, List.head?_eq_getElem?, List.getElem?_eq_getElem hpos]
      exact h _ hlast (of_decide_eq_true heq)
    rw [trailing, List.reverse_append, List.takeWhile_append, htake, if_pos rfl, hpre, List.append_nil,
      trailing, htake]

theorem lone_cons {c : Char} (h : c ≠ '\\' ∨ ∃ x ∈ cs, x ≠ '\\') :
    Lone (c :: cs) ↔ Lone cs := by
  have hcons : c :: cs = [c] ++ cs := rfl
  rw [Lone, Lone, hcons]
  rcases h with hc | hcs
  · rw [trailing_append_of_last]
    intro d hd
    cases hd
    exact hc
  · rw [trailing_append hcs]

/-- A backslash and the character behind it. -/
theorem lone_escape (c : Char) (cs : List Char) : Lone ('\\' :: c :: cs) ↔ Lone cs := by
  by_cases h : c ≠ '\\' ∨ ∃ x ∈ cs, x ≠ '\\'
  · have hmem : ∃ x ∈ c :: cs, x ≠ '\\' := by
      rcases h with hc | ⟨x, hx, hne⟩
      · exact ⟨c, List.mem_cons_self, hc⟩
      · exact ⟨x, List.mem_cons_of_mem c hx, hne⟩
    rw [lone_cons (.inr hmem), lone_cons h]
  · have hall : ∀ x ∈ cs, x = '\\' := by
      intro x hx
      by_contra hne
      exact h (.inr ⟨x, hx, hne⟩)
    have hc : c = '\\' := by
      by_contra hne
      exact h (.inl hne)
    have hall' : ∀ x ∈ '\\' :: c :: cs, x = '\\' := by
      intro x hx
      rcases List.mem_cons.mp hx with rfl | hx
      · rfl
      · rcases List.mem_cons.mp hx with rfl | hx
        · exact hc
        · exact hall x hx
    rw [Lone, Lone, trailing_of_all hall, trailing_of_all hall']
    simp only [List.length_cons]
    omega

/-- How the text has to go on for an extraction that ends behind it. -/
def EndsLone (text : List Char) : Reading → ℕ → Prop
  | .plain, i => Lone (text.drop i)
  | .escape, i => Lone ('\\' :: text.drop i)
  | .quoted q, i => q ≠ '\\' → Lone (text.drop i) ∧ ∃ c ∈ text.drop i, c ≠ '\\'
  | .quotedEscape, i => Lone (text.drop (i + 1)) ∧ ∃ c ∈ text.drop (i + 1), c ≠ '\\'

variable {token : List Char}

theorem keep_returns {c : Char} {x : Outcome (List Char × ℕ)} {j : ℕ}
    (h : (do let r ← x; .returns (c :: r.1, r.2)) = Outcome.returns (token, j)) :
    ∃ token', x = .returns (token', j) ∧ token = c :: token' := by
  obtain ⟨⟨token', j'⟩, hx, hr⟩ := Outcome.bind_returns h
  cases hr
  exact ⟨token', hx, rfl⟩

variable {predicate : Char → Bool} {i : ℕ} {exp : String}

/-- **Only a lone backslash leads behind the end.** -/
theorem endsLone_of_extractUntil {text : List Char} {r : Reading}
    {j : ℕ}
    (h : extractUntil predicate exp text r i = .returns (token, j)) (hi : i ≤ text.length)
    (hj : text.length < j) : EndsLone text r i := by
  fun_induction extractUntil predicate exp text r i generalizing token with
  | case1 i hlt hp =>
    cases h
    omega
  | case2 i hlt hp hq ih =>
    have hne : text[i] ≠ '\\' := by
      rcases hq with hq | hq <;> rw [hq] <;> decide
    rw [EndsLone, drop_eq_cons hlt, lone_cons (.inl hne)]
    exact (ih h hlt hne).1
  | case3 i hlt hp hq hslash ih =>
    rw [EndsLone, drop_eq_cons hlt, hslash]
    exact ih h hlt
  | case4 i hlt hp hq hslash ih =>
    obtain ⟨token', hx, -⟩ := keep_returns h
    rw [EndsLone, drop_eq_cons hlt, lone_cons (.inl hslash)]
    exact ih hx hlt
  | case5 i hge =>
    cases h
    omega
  | case6 i hlt ih =>
    obtain ⟨token', hx, -⟩ := keep_returns h
    rw [EndsLone, drop_eq_cons hlt, lone_escape]
    exact ih hx hlt
  | case7 i hge =>
    rw [EndsLone, drop_eq_nil hge]
    decide
  | case8 i hlt ih =>
    intro hq
    rw [drop_eq_cons hlt, lone_cons (.inl hq)]
    exact ⟨ih h hlt, _, List.mem_cons_self, hq⟩
  | case9 q i hlt hne hslash ih =>
    intro hq
    obtain ⟨hlone, c, hc, hcne⟩ := ih h hlt
    by_cases hlt' : i + 1 < text.length
    · have hmem : c ∈ text.drop (i + 1) := by
        rw [drop_eq_cons hlt']
        exact List.mem_cons_of_mem _ hc
      rw [drop_eq_cons hlt, lone_cons (.inr ⟨c, hmem, hcne⟩), drop_eq_cons hlt',
        lone_cons (.inr ⟨c, hc, hcne⟩)]
      exact ⟨hlone, c, List.mem_cons_of_mem _ (List.mem_cons_of_mem _ hc), hcne⟩
    · rw [drop_eq_nil (by omega)] at hc
      cases hc
  | case10 q i hlt hne hslash ih =>
    intro hq
    obtain ⟨token', hx, -⟩ := keep_returns h
    obtain ⟨hlone, c, hc, hcne⟩ := ih hx hlt hq
    rw [drop_eq_cons hlt, lone_cons (.inr ⟨c, hc, hcne⟩)]
    exact ⟨hlone, c, List.mem_cons_of_mem _ hc, hcne⟩
  | case11 q i hge => cases h
  | case12 i hlt ih =>
    obtain ⟨token', hx, -⟩ := keep_returns h
    exact ih hx hlt (by decide)
  | case13 i hge => cases h

/-- An extraction stops at the end, or at a character that ends it. -/
theorem stops_of_extractUntil {text : List Char} {r : Reading}
    {j : ℕ}
    (h : extractUntil predicate exp text r i = .returns (token, j)) :
    ∀ c ∈ text[j]?, predicate c = true := by
  fun_induction extractUntil predicate exp text r i generalizing token with
  | case1 i hlt hp =>
    cases h
    rw [List.getElem?_eq_getElem hlt]
    rintro c ⟨⟩
    exact hp
  | case2 i hlt hp hq ih => exact ih h
  | case3 i hlt hp hq hslash ih => exact ih h
  | case4 i hlt hp hq hslash ih | case6 i hlt ih | case10 q i hlt hne hslash ih | case12 i hlt ih =>
    obtain ⟨token', hx, -⟩ := keep_returns h
    exact ih hx
  | case5 i hge =>
    cases h
    rw [List.getElem?_eq_none (Nat.le_of_not_lt hge)]
    simp
  | case7 i hge =>
    cases h
    rw [List.getElem?_eq_none (by omega)]
    simp
  | case8 i hlt ih => exact ih h
  | case9 q i hlt hne hslash ih => exact ih h
  | case11 q i hge => cases h
  | case13 i hge => cases h

/-! ## Accesses -/

/-- An index where a token may start: no lone backslash of the text ends before it. -/
def Safe (text : List Char) (i : ℕ) : Prop :=
  i ≤ text.length ∧ (Lone (text.drop i) → Lone text)

theorem safe_of_prev {text : List Char} {c : Char} (hc : text[i]? = some c) (hne : c ≠ '\\') :
    Safe text (i + 1) := by
  have hlt : i < text.length := by
    by_contra hge
    rw [List.getElem?_eq_none (Nat.le_of_not_lt hge)] at hc
    cases hc
  refine ⟨hlt, ?_⟩
  intro hlone
  have hlast : ∀ d ∈ (text.take (i + 1)).getLast?, d ≠ '\\' := by
    intro d hd
    rw [List.getLast?_take] at hd
    simp only [Nat.add_one_ne_zero, if_false, Nat.add_sub_cancel, hc, Option.some_or] at hd
    cases hd
    exact hne
  rw [Lone, ← List.take_append_drop (i + 1) text, trailing_append_of_last hlast]
  exact hlone

theorem safe_of_stop {text : List Char} (hi : i ≤ text.length)
    (hc : ∀ c ∈ text[i]?, c ≠ '\\') : Safe text i := by
  refine ⟨hi, ?_⟩
  intro hlone
  by_cases hlt : i < text.length
  · have hmem : ∃ c ∈ text.drop i, c ≠ '\\' := by
      rw [drop_eq_cons hlt]
      exact ⟨_, List.mem_cons_self, hc _ (List.getElem?_eq_getElem hlt)⟩
    rw [Lone, ← List.take_append_drop i text, trailing_append hmem]
    exact hlone
  · rw [drop_eq_nil hlt] at hlone
    cases hlone

theorem Safe.skipWs {text : List Char} (h : Safe text i) :
    ∃ j, skipWs text i = .returns j ∧ Safe text j := by
  obtain ⟨j, hj, hle, hlength, -, hlast⟩ := skipWs_le h.1
  refine ⟨j, hj, ?_⟩
  rcases Nat.eq_or_lt_of_le hle with rfl | hlt
  · exact h
  · have hlt' : j - 1 < text.length := by omega
    have hspace := hlast _ (List.getElem?_eq_getElem hlt') hlt
    have hne : text[j - 1] ≠ '\\' := by
      intro heq
      rw [heq] at hspace
      cases hspace
    rw [show j = j - 1 + 1 by omega]
    exact safe_of_prev (List.getElem?_eq_getElem hlt') hne

section

variable {text : List Char} (hlone : ¬ Lone text)

include hlone

theorem Safe.extractUntil {predicate : Char → Bool} (hp : predicate '\\' = false) {exp : String}
    {i : ℕ} (h : Safe text i) {token : List Char} {j : ℕ}
    (hx : extractUntil predicate exp text .plain i = .returns (token, j)) : Safe text j := by
  have hj : j ≤ text.length := by
    by_contra hgt
    have hends := endsLone_of_extractUntil hx h.1 (Nat.lt_of_not_le hgt)
    exact hlone (h.2 hends)
  refine safe_of_stop hj ?_
  rintro c hc rfl
  have hstop := stops_of_extractUntil hx _ hc
  rw [hp] at hstop
  cases hstop

end

theorem extractUntil_ne_outside {text : List Char} {r : Reading}
    {index : ℕ} : extractUntil predicate exp text r i ≠ .outside index := by
  intro h
  have hsame := extractUntil_sameWord predicate exp text r i
  rw [h] at hsame
  exact hsame

/-- A call stays on the text: no access outside, and `_next` where a token may start. -/
def Stays (text : String) (x : Outcome (String × IndexTokenizer)) : Prop :=
  (∀ index, x ≠ .outside index) ∧
    ∀ token t, x = .returns (token, t) → t.text = text ∧ Safe text.toList t.next_

theorem stays_closeBrace (t : IndexTokenizer) (token : String) : Stays t.text (t.closeBrace token) := by
  unfold closeBrace
  split
  · rename_i h
    split
    · rename_i hbrace
      refine ⟨fun index heq => (by cases heq), ?_⟩
      rintro token' t' ⟨⟩
      refine ⟨rfl, safe_of_prev (List.getElem?_eq_getElem h) ?_⟩
      rw [hbrace]
      decide
    · exact ⟨fun index heq => (by cases heq), fun token' t' heq => (by cases heq)⟩
  · exact ⟨fun index heq => (by cases heq), fun token' t' heq => (by cases heq)⟩

theorem Stays.bind {α : Type} {text : String} {x : Outcome α}
    {f : α → Outcome (String × IndexTokenizer)} (hx : ∀ index, x ≠ .outside index)
    (hf : ∀ a, x = .returns a → Stays text (f a)) : Stays text (x >>= f) := by
  refine ⟨?_, ?_⟩
  · intro index h
    rcases Outcome.bind_outside h with h | ⟨a, ha, h⟩
    · exact hx index h
    · exact (hf a ha).1 index h
  · intro token t h
    obtain ⟨a, ha, h⟩ := Outcome.bind_returns h
    exact (hf a ha).2 token t h

variable {t : IndexTokenizer}

theorem stays_extractBrace (hlone : ¬ Lone t.text.toList)
    (h : Safe t.text.toList t.current) : Stays t.text t.extractBrace := by
  unfold extractBrace
  refine Stays.bind (fun index => extractUntil_ne_outside) ?_
  rintro ⟨name, next⟩ hname
  have hnext := h.extractUntil hlone (by decide) hname
  show Stays t.text (if isKeyword (String.ofList name) then _ else _)
  split
  · exact stays_closeBrace { t with next_ := next } _
  · obtain ⟨j, hj, hsafe⟩ := hnext.skipWs
    refine Stays.bind (fun index heq => by rw [hj] at heq; cases heq) ?_
    intro current hcurrent
    rw [hj] at hcurrent
    cases hcurrent
    split
    · split
      · refine Stays.bind (fun index => extractUntil_ne_outside) ?_
        rintro ⟨service, next'⟩ -
        exact stays_closeBrace ⟨t.text, j, next', _⟩ _
      · exact stays_closeBrace ⟨t.text, j, j, _⟩ _
    · exact stays_closeBrace ⟨t.text, j, j, _⟩ _

theorem stays_readToken (hlone : ¬ Lone t.text.toList)
    (hnext : t.next_ = t.current) (h : Safe t.text.toList t.current) : Stays t.text t.readToken := by
  unfold readToken
  split
  · rename_i hlt
    split
    · rename_i hspecial
      have hsingle : Stays t.text (.returns (String.ofList [t.text.toList[t.current]],
          { t with next_ := t.current + 1 })) := by
        refine ⟨fun index heq => (by cases heq), ?_⟩
        rintro token' t' ⟨⟩
        refine ⟨rfl, safe_of_prev (List.getElem?_eq_getElem hlt) ?_⟩
        intro heq
        rw [heq] at hspecial
        cases hspecial
      split
      · rename_i hlt'
        split
        · rename_i hdouble
          refine ⟨fun index heq => (by cases heq), ?_⟩
          rintro token' t' ⟨⟩
          refine ⟨rfl, safe_of_prev (List.getElem?_eq_getElem hlt') ?_⟩
          intro heq
          rw [heq] at hdouble
          simp only [isDouble, Bool.or_eq_true, Bool.and_eq_true, beq_iff_eq] at hdouble
          rcases hdouble with ⟨-, hd⟩ | ⟨hc | hc, hd⟩
          · cases hd
          · rw [hc] at hd
            cases hd
          · rw [hc] at hd
            cases hd
        · exact hsingle
      · exact hsingle
    · unfold extractToken
      split
      · rename_i hbrace
        refine stays_extractBrace (t := { t with current := t.current + 1 }) hlone ?_
        refine safe_of_prev (List.getElem?_eq_getElem hlt) ?_
        rw [hbrace]
        decide
      · refine Stays.bind (fun index => extractUntil_ne_outside) ?_
        rintro ⟨token, next⟩ hx
        refine ⟨fun index heq => (by cases heq), ?_⟩
        rintro token' t' ⟨⟩
        exact ⟨rfl, h.extractUntil hlone (by decide) hx⟩
  · refine ⟨fun index heq => (by cases heq), ?_⟩
    rintro token' t' ⟨⟩
    refine ⟨rfl, ?_⟩
    rw [hnext]
    exact h

/-- **Without a lone backslash, a call stays on the text.** -/
theorem stays_next (hlone : ¬ Lone t.text.toList)
    (h : Safe t.text.toList t.next_) : Stays t.text t.next := by
  unfold next
  split
  · refine ⟨fun index heq => (by cases heq), ?_⟩
    rintro token' t' ⟨⟩
    exact ⟨rfl, h⟩
  · obtain ⟨j, hj, hsafe⟩ := h.skipWs
    refine Stays.bind (fun index heq => by rw [hj] at heq; cases heq) ?_
    intro current hcurrent
    rw [hj] at hcurrent
    cases hcurrent
    exact stays_readToken (t := { t with current := j, next_ := j }) hlone rfl hsafe

end CentreonBroker.Bam.IndexTokenizer

namespace CentreonBroker.Bam.ExpTokenizer

/-! ## What a call takes -/

/-- Nothing but empty pairs of quotes. -/
inductive Hollow : List Char → Prop
  | nil : Hollow []
  | pair {q w} : q = '\'' ∨ q = '"' → Hollow w → Hollow (q :: q :: w)

/-- A name of the text is written with no character: it is made of empty pairs of quotes, or there is
nothing of it behind a left brace. -/
def WrittenEmpty (text : List Char) : Prop :=
  ∃ pre w post, text = pre ++ (w ++ post) ∧ Hollow w ∧ (w ≠ [] ∨ pre.getLast? = some '{') ∧
    ∀ c ∈ post.head?, isDelimiter c = true ∨ c = '}'

section

variable {predicate : Char → Bool} {exp : String} {r : Reading} {cs token rest : List Char}

/-- What is left starts with a character that ends the token. -/
theorem head_of_extractUntil (h : extractUntil predicate exp r cs = .ok (token, rest)) :
    ∀ c ∈ rest.head?, predicate c = true := by
  have hkeep : ∀ {c : Char} {x : Except String (List Char × List Char)} {token rest : List Char},
      (∀ {token rest : List Char}, x = .ok (token, rest) → ∀ c ∈ rest.head?, predicate c = true) →
      (x.map fun r => (c :: r.1, r.2)) = .ok (token, rest) → ∀ c ∈ rest.head?, predicate c = true := by
    intro c x token rest ih h
    obtain ⟨⟨token', rest'⟩, hx, hr⟩ := map_eq_ok h
    cases hr
    exact ih hx
  fun_induction extractUntil predicate exp r cs generalizing token rest with
  | case1 => cases h; simp
  | case2 c cs hp =>
    cases h
    rintro d ⟨⟩
    exact hp
  | case3 c cs hp hq ih => exact ih h
  | case4 cs hp hq ih => exact ih h
  | case5 c cs hp hq hb ih => exact hkeep ih h
  | case6 => cases h; simp
  | case7 c cs ih => exact hkeep ih h
  | case8 => cases h
  | case9 c cs ih => exact ih h
  | case10 q c cs hc hm ih => exact ih h
  | case11 q c cs hc hm ih => exact hkeep ih h
  | case12 => cases h
  | case13 c cs ih => exact hkeep ih h

/-- How an empty token is written, up to a lone backslash at the end. -/
def EmptyFrom (rest : List Char) : Reading → List Char → Prop
  | .plain, cs => ∃ w, Hollow w ∧ (cs = w ++ rest ∨ rest = [])
  | .escape, _ => rest = []
  | .quoted q, cs => ∃ w, Hollow w ∧ (cs = q :: (w ++ rest) ∨ rest = [])
  | .quotedEscape, _ => False

theorem emptyFrom_of_extractUntil (h : extractUntil predicate exp r cs = .ok ([], rest)) :
    EmptyFrom rest r cs := by
  have hkeep : ∀ {c : Char} {x : Except String (List Char × List Char)} {rest : List Char},
      (x.map fun r => (c :: r.1, r.2)) = .ok ([], rest) → False := by
    intro c x rest h
    obtain ⟨r, -, hr⟩ := map_eq_ok h
    cases hr
  fun_induction extractUntil predicate exp r cs generalizing rest with
  | case1 => cases h; exact ⟨[], .nil, .inl rfl⟩
  | case2 c cs hp => cases h; exact ⟨[], .nil, .inl rfl⟩
  | case3 c cs hp hq ih =>
    obtain ⟨w, hw, heq⟩ := ih h
    refine ⟨c :: c :: w, .pair hq hw, ?_⟩
    rcases heq with rfl | heq
    · exact .inl rfl
    · exact .inr heq
  | case4 cs hp hq ih => exact ⟨[], .nil, .inr (ih h)⟩
  | case5 c cs hp hq hb ih => exact (hkeep h).elim
  | case6 => cases h; exact rfl
  | case7 c cs ih => exact (hkeep h).elim
  | case8 => cases h
  | case9 c cs ih =>
    obtain ⟨w, hw, heq⟩ := ih h
    refine ⟨w, hw, ?_⟩
    rcases heq with rfl | heq
    · exact .inl rfl
    · exact .inr heq
  | case10 q c cs hc hm ih => exact (ih h).elim
  | case11 q c cs hc hm ih => exact (hkeep h).elim
  | case12 => cases h
  | case13 c cs ih => exact (hkeep h).elim

end

variable {u' u : ExpTokenizer}

theorem closeBrace_ok {current rest : List Char} {token token' : String}
    {queue : List String} (h : u.closeBrace current token rest queue = .ok (token', u')) :
    token' = token ∧ rest = '}' :: u'.rest ∧ u'.queue = queue ∧ u'.text = u.text := by
  unfold closeBrace at h
  split at h
  · cases h
    exact ⟨rfl, rfl, rfl, rfl⟩
  · cases h

/-- What a call takes from the text. -/
structure Taken (exp : String) (start : List Char) (token : String) (u : ExpTokenizer) : Prop where
  same : u.text = exp
  shorter : u.rest.length < start.length
  /-- Two characters pay for three tokens in the queue and the one that is returned. -/
  cost : 1 + u.queue.length + 2 * u.rest.length ≤ 2 * start.length
  empty : ∀ text, start <:+ text → token = "" ∨ "" ∈ u.queue →
    WrittenEmpty text ∨ token = "" ∧ u.rest = [] ∧ u.queue = []

theorem ofList_eq_empty {w : List Char} (h : "" = String.ofList w) : w = [] := by
  have hlist : (String.ofList w).toList = w := String.toList_ofList
  rw [← hlist, ← h]
  rfl

theorem isKeyword_ne_empty {token : String} (h : isKeyword token = true) : token ≠ "" := by
  rintro rfl
  revert h
  decide

/-- The first name between braces. -/
theorem writtenEmpty_name {exp : String} {cs rest text : List Char} (hsuffix : '{' :: cs <:+ text)
    (h : extractUntil isSpaceOrRightBrace exp .plain cs = .ok ([], rest)) (hrest : rest ≠ []) :
    WrittenEmpty text := by
  obtain ⟨w, hw, hcs | hcs⟩ := emptyFrom_of_extractUntil h
  · obtain ⟨pre, hpre⟩ := hsuffix
    refine ⟨pre ++ ['{'], w, rest, ?_, hw, .inr List.getLast?_concat, ?_⟩
    · rw [← hpre, hcs, List.append_assoc]
      rfl
    · intro c hc
      have hstop := head_of_extractUntil h c hc
      simp only [isSpaceOrRightBrace, isRightBrace, Bool.or_eq_true, beq_iff_eq] at hstop
      rcases hstop with hspace | hbrace
      · exact .inl (by rw [isDelimiter, hspace]; rfl)
      · exact .inr hbrace
  · exact absurd hcs hrest

/-- A token or a name that starts where no token ends. -/
theorem writtenEmpty_word {predicate : Char → Bool} {exp : String} {c : Char} {cs rest text : List Char}
    (hp : ∀ d, predicate d = true → isDelimiter d = true ∨ d = '}') (hc : predicate c = false)
    (hsuffix : c :: cs <:+ text) (h : extractUntil predicate exp .plain (c :: cs) = .ok ([], rest)) :
    WrittenEmpty text ∨ rest = [] := by
  obtain ⟨w, hw, hcs | hcs⟩ := emptyFrom_of_extractUntil h
  · obtain ⟨pre, hpre⟩ := hsuffix
    refine .inl ⟨pre, w, rest, ?_, hw, .inl ?_, ?_⟩
    · rw [← hpre, hcs]
    · rintro rfl
      have hstop := head_of_extractUntil h c (by rw [show rest = c :: cs from hcs.symm]; rfl)
      rw [hc] at hstop
      cases hstop
    · intro d hd
      exact hp d (head_of_extractUntil h d hd)
  · exact .inr hcs

theorem taken_extractBrace {cs : List Char} {token : String} (hqueue : u.queue = [])
    (h : u.extractBrace cs = .ok (token, u')) : Taken u.text ('{' :: cs) token u' := by
  unfold extractBrace at h
  rw [hqueue] at h
  cases hx : extractUntil isSpaceOrRightBrace u.text .plain cs with
  | error e =>
    rw [hx] at h
    cases h
  | ok r =>
    obtain ⟨name, rest⟩ := r
    have hsuffix := (suffix_of_extractUntil hx).trans (List.suffix_cons '{' cs)
    have hlength := length_extractUntil_le hx
    have hskip : skipWs rest <:+ rest := List.dropWhile_suffix _
    have hskiplength := length_skipWs_le rest
    rw [hx] at h
    simp only [bind, Except.bind] at h
    split at h
    · -- a keyword stays as it is
      rename_i hkeyword
      obtain ⟨rfl, hrest, hq, hsame⟩ := closeBrace_ok h
      rw [hrest] at hlength
      simp only [List.length_cons] at hlength
      refine ⟨hsame, ?_, ?_, ?_⟩
      · simp only [List.length_cons]
        omega
      · rw [hq]
        simp only [List.length_cons, List.length_nil]
        omega
      · rintro text - (hempty | hempty)
        · exact absurd hempty (isKeyword_ne_empty hkeyword)
        · rw [hq] at hempty
          cases hempty
    · have hfirst : ∀ {text : List Char}, '{' :: cs <:+ text → "" = String.ofList name → rest ≠ [] →
          WrittenEmpty text := by
        intro text htext hname hne
        rw [ofList_eq_empty hname] at hx
        exact writtenEmpty_name htext hx hne
      split at h
      · rename_i c cs' hc
        have hne : rest ≠ [] := by
          rintro rfl
          cases hc
        rw [hc] at hskip hskiplength
        split at h
        · -- a second name: white space stands in front of it
          rename_i hbrace
          have hspace : (c :: cs').length < rest.length := by
            cases rest with
            | nil => exact absurd rfl hne
            | cons d rest =>
              have hstop := head_of_extractUntil hx d rfl
              cases hd : isspace d with
              | true =>
                have hle := length_skipWs_le rest
                rw [skipWs, List.dropWhile_cons_of_pos hd] at hc
                rw [skipWs, hc] at hle
                rw [List.length_cons (a := d)]
                omega
              | false =>
                rw [skipWs, List.dropWhile_cons_of_neg (by simp [hd])] at hc
                simp only [isSpaceOrRightBrace, isRightBrace, hd, Bool.false_or, beq_iff_eq] at hstop
                exact absurd ((List.cons.inj hc).1.symm.trans hstop) hbrace
          cases hy : extractUntil isRightBrace u.text .plain (c :: cs') with
          | error e =>
            rw [hy] at h
            cases h
          | ok r =>
            obtain ⟨service, rest'⟩ := r
            have hpred : isRightBrace c = false := by simpa [isRightBrace] using hbrace
            have hlength' := length_extractUntil_lt hpred hy
            rw [hy] at h
            obtain ⟨rfl, hrest', hq, hsame⟩ := closeBrace_ok h
            have hrest' : rest' = '}' :: u'.rest := hrest'
            rw [hrest'] at hlength'
            simp only [List.length_cons] at hlength' hspace hskiplength
            refine ⟨hsame, ?_, ?_, ?_⟩
            · simp only [List.length_cons]
              omega
            · rw [hq]
              simp only [List.length_cons, List.length_nil, List.length_append]
              omega
            · intro text htext hempty
              refine .inl ?_
              rw [hq] at hempty
              simp only [List.nil_append, List.cons_append, List.mem_cons, List.not_mem_nil,
                or_false] at hempty
              rcases hempty with hempty | hempty | hempty | hempty | hempty | hempty
              · exact absurd hempty (by decide)
              · exact absurd hempty (by decide)
              · exact hfirst htext hempty hne
              · exact absurd hempty (by decide)
              · rw [ofList_eq_empty hempty] at hy
                have hp : ∀ d, isRightBrace d = true → isDelimiter d = true ∨ d = '}' := by
                  intro d hd
                  exact .inr (by simpa [isRightBrace] using hd)
                have htext' := (hskip.trans hsuffix).trans htext
                rcases writtenEmpty_word hp hpred htext' hy with hwritten | hnil
                · exact hwritten
                · rw [hnil] at hrest'
                  cases hrest'
              · exact absurd hempty (by decide)
        · -- the name of a host alone
          obtain ⟨rfl, hrest', hq, hsame⟩ := closeBrace_ok h
          rw [hrest'] at hskiplength
          simp only [List.length_cons] at hskiplength
          refine ⟨hsame, ?_, ?_, ?_⟩
          · simp only [List.length_cons]
            omega
          · rw [hq]
            simp only [List.length_cons, List.length_nil, List.length_append]
            omega
          · intro text htext hempty
            refine .inl ?_
            rw [hq] at hempty
            simp only [List.nil_append, List.cons_append, List.mem_cons, List.not_mem_nil,
              or_false] at hempty
            rcases hempty with hempty | hempty | hempty | hempty
            · exact absurd hempty (by decide)
            · exact absurd hempty (by decide)
            · exact hfirst htext hempty hne
            · exact absurd hempty (by decide)
      · obtain ⟨-, hrest', -⟩ := closeBrace_ok h
        cases hrest'

/-- **A call that reads the text takes a character at least.** -/
theorem taken_next {token : String} (hqueue : u.queue = [])
    (hrest : skipWs u.rest ≠ []) (h : u.next = .ok (token, u')) : Taken u.text u.rest token u' := by
  have hskip : skipWs u.rest <:+ u.rest := List.dropWhile_suffix _
  have hskiplength := length_skipWs_le u.rest
  -- what is taken behind the white space is taken from the text
  have htaken : Taken u.text (skipWs u.rest) token u' → Taken u.text u.rest token u' := by
    rintro ⟨hsame, hshorter, hcost, hempty⟩
    refine ⟨hsame, by omega, by omega, ?_⟩
    intro text htext
    exact hempty text (hskip.trans htext)
  refine htaken ?_
  obtain ⟨exp, start, queue⟩ := u
  obtain rfl : queue = [] := hqueue
  have hspecial : ∀ {cs rest w : List Char}, w ≠ [] → rest.length < cs.length →
      Taken exp cs (String.ofList w) ⟨exp, rest, []⟩ := by
    intro cs rest w hw hlt
    refine ⟨rfl, hlt, ?_, ?_⟩
    · simp only [List.length_nil]
      omega
    · rintro text - (hempty | hempty)
      · exact absurd (ofList_eq_empty hempty.symm) hw
      · cases hempty
  unfold next at h
  simp only at h hskip hrest ⊢
  cases hc : skipWs start with
  | nil => exact absurd hc hrest
  | cons c cs =>
    rw [hc] at h
    simp only at h
    split at h
    · split at h
      · rename_i d ds
        split at h
        · cases h
          refine hspecial (List.cons_ne_nil _ _) ?_
          simp only [List.length_cons]
          omega
        · cases h
          exact hspecial (List.cons_ne_nil _ _) (Nat.lt_succ_self _)
      · cases h
        exact hspecial (List.cons_ne_nil _ _) (Nat.lt_succ_self _)
    · rename_i hnot
      unfold extractToken at h
      split at h
      · rename_i hbrace
        rw [hbrace]
        exact taken_extractBrace rfl h
      · obtain ⟨⟨token', rest'⟩, hx, heq⟩ := map_eq_ok h
        cases heq
        have hdelim : isDelimiter c = false := by
          simp [isDelimiter, isspace_of_skipWs hc, hnot]
        have hlt := length_extractUntil_lt hdelim hx
        refine ⟨rfl, hlt, ?_, ?_⟩
        · simp only [List.length_nil]
          omega
        · rintro text htext (hempty | hempty)
          · have htoken : token' = [] := ofList_eq_empty hempty.symm
            rw [htoken] at hx
            rcases writtenEmpty_word (fun d hd => .inl hd) hdelim htext hx with hwritten | hnil
            · exact .inl hwritten
            · exact .inr ⟨hempty, hnil, rfl⟩
          · cases hempty

end CentreonBroker.Bam.ExpTokenizer

namespace CentreonBroker.Bam.IndexTokenizer

open ExpTokenizer (isspace WrittenEmpty Taken)

/-! ## Any number of calls -/

/-- Nothing but white space is left. -/
def Finished (t : IndexTokenizer) : Prop :=
  t.queue = [] ∧ ∀ c ∈ t.text.toList.drop t.next_, isspace c = true

instance (t : IndexTokenizer) : Decidable t.Finished :=
  @instDecidableAnd _ _ inferInstance (List.decidableBAll _ _)

/-- Where `next` leads on a text: with the number of calls that read a token from the text, and the
number of calls that returned a token. Calls at the end are not counted. -/
inductive Reached (text : String) : ℕ → ℕ → IndexTokenizer → Prop
  | new : Reached text 0 0 (.new text)
  | queued {reads calls t token t'} : Reached text reads calls t → t.queue ≠ [] →
      t.next = .returns (token, t') → Reached text reads (calls + 1) t'
  | read {reads calls t token t'} : Reached text reads calls t → t.queue = [] → ¬ t.Finished →
      t.next = .returns (token, t') → Reached text (reads + 1) (calls + 1) t'
  | ended {reads calls t token t'} : Reached text reads calls t → t.Finished →
      t.next = .returns (token, t') → Reached text reads calls t'

variable {t : IndexTokenizer}

/-- What a call does, from one of three states. -/
theorem next_cases {t' : IndexTokenizer} {token : String} (h : t.next = .returns (token, t')) :
    (t.queue = token :: t'.queue ∧ t' = { t with queue := t'.queue }) ∨
    (t.Finished ∧ token = "" ∧ t'.abs = ⟨t.text, [], []⟩ ∧ t.text.toList.length ≤ t'.next_) ∨
    (t.queue = [] ∧ ¬ t.Finished ∧ Taken t.text t.abs.rest token t'.abs) := by
  have hsame := next_sameToken t
  rw [h] at hsame
  cases habs : t.abs.next with
  | error message =>
    rw [habs] at hsame
    exact hsame.elim
  | ok r =>
    obtain ⟨token', u⟩ := r
    rw [habs] at hsame
    obtain ⟨rfl, rfl⟩ := hsame
    cases hqueue : t.queue with
    | cons first queue =>
      have hnext : t.next = .returns (first, { t with queue := queue }) := by
        rw [next, hqueue]
      rw [hnext] at h
      cases h
      exact .inl ⟨rfl, rfl⟩
    | nil =>
      right
      have hqueue' : t.abs.queue = [] := hqueue
      by_cases hskip : ExpTokenizer.skipWs t.abs.rest = []
      · left
        have hend : t.abs.next = .ok ("", { t.abs with rest := [] }) := by
          simp [ExpTokenizer.next, hqueue', hskip]
        rw [hend] at habs
        obtain ⟨htoken, hleft⟩ := Prod.mk.inj (Except.ok.inj habs)
        have habs' : t'.abs = ⟨t.text, [], []⟩ := by
          rw [← hleft]
          show (⟨t.text, [], t.queue⟩ : ExpTokenizer) = _
          rw [hqueue]
        refine ⟨⟨hqueue, ?_⟩, htoken.symm, habs', ?_⟩
        · rw [ExpTokenizer.skipWs, List.dropWhile_eq_nil_iff] at hskip
          exact hskip
        · have hrest : t'.text.toList.drop t'.next_ = [] := congrArg ExpTokenizer.rest habs'
          have htext : t'.text = t.text := congrArg ExpTokenizer.text habs'
          rw [List.drop_eq_nil_iff, htext] at hrest
          exact hrest
      · right
        refine ⟨rfl, ?_, ExpTokenizer.taken_next hqueue' hskip habs⟩
        rintro ⟨-, hall⟩
        refine hskip ?_
        rw [ExpTokenizer.skipWs, List.dropWhile_eq_nil_iff]
        exact hall

/-- What holds of a state that calls lead to. -/
structure Held (text : String) (reads calls : ℕ) (t : IndexTokenizer) : Prop where
  text_eq : t.text = text
  reads_le : reads + t.abs.rest.length ≤ text.toList.length
  calls_le : calls + t.queue.length + 2 * t.abs.rest.length ≤ 2 * text.toList.length
  empty : "" ∈ t.queue → WrittenEmpty text.toList
  safe : ¬ Lone text.toList → Safe text.toList t.next_

theorem Held.next {text : String} {reads calls : ℕ} {t' : IndexTokenizer} {token : String}
    (h : Held text reads calls t) (hnext : t.next = .returns (token, t')) :
    (t.queue ≠ [] → Held text reads (calls + 1) t') ∧
    (t.queue = [] → ¬ t.Finished → Held text (reads + 1) (calls + 1) t') ∧
    (t.Finished → Held text reads calls t') := by
  obtain ⟨rfl, hreads, hcalls, hempty, hsafe⟩ := h
  have hstays : ¬ Lone t.text.toList → Safe t.text.toList t'.next_ := by
    intro hlone
    exact ((stays_next hlone (hsafe hlone)).2 token t' hnext).2
  rcases next_cases hnext with ⟨hqueue, heq⟩ | ⟨hfinished, -, habs, -⟩ | ⟨hqueue, hnot, htaken⟩
  · -- a token that waited in the queue
    have hrest : t'.abs.rest = t.abs.rest := by
      rw [heq]
      rfl
    refine ⟨fun _ => ⟨by rw [heq], by rw [hrest]; exact hreads, ?_, ?_, hstays⟩, ?_, ?_⟩
    · rw [hqueue, List.length_cons] at hcalls
      rw [hrest]
      omega
    · intro hmem
      exact hempty (by rw [hqueue]; exact List.mem_cons_of_mem _ hmem)
    · intro hnil
      rw [hqueue] at hnil
      cases hnil
    · rintro ⟨hnil, -⟩
      rw [hqueue] at hnil
      cases hnil
  · have htext : t'.text = t.text := congrArg ExpTokenizer.text habs
    have hrest : t'.abs.rest = [] := congrArg ExpTokenizer.rest habs
    have hqueue : t'.queue = [] := congrArg ExpTokenizer.queue habs
    refine ⟨fun hne => absurd hfinished.1 hne, fun _ hnot => absurd hfinished hnot, fun _ => ?_⟩
    refine ⟨htext, ?_, ?_, ?_, hstays⟩
    · rw [hrest, List.length_nil]
      omega
    · rw [hrest, hqueue, List.length_nil, List.length_nil]
      omega
    · intro hmem
      rw [hqueue] at hmem
      cases hmem
  · obtain ⟨htext, hshorter, hcost, hwritten⟩ := htaken
    refine ⟨fun hne => absurd hqueue hne, fun _ _ => ?_, fun hfinished => absurd hfinished hnot⟩
    refine ⟨htext, by omega, ?_, ?_, hstays⟩
    · have hqueue' : t'.abs.queue = t'.queue := rfl
      rw [hqueue'] at hcost
      rw [hqueue, List.length_nil] at hcalls
      omega
    · intro hmem
      rcases hwritten t.text.toList (List.drop_suffix _ _) (.inr hmem) with hwritten | ⟨-, -, hnil⟩
      · exact hwritten
      · have hnil : t'.queue = [] := hnil
        rw [hnil] at hmem
        cases hmem

theorem Reached.held {text : String} {reads calls : ℕ}
    (h : Reached text reads calls t) : Held text reads calls t := by
  induction h with
  | new =>
    refine ⟨rfl, ?_, ?_, ?_, fun _ => ⟨Nat.zero_le _, id⟩⟩
    · show 0 + (text.toList.drop 0).length ≤ _
      rw [List.drop_zero, Nat.zero_add]
    · show 0 + 0 + 2 * (text.toList.drop 0).length ≤ _
      rw [List.drop_zero, Nat.zero_add]
    · intro hmem
      cases hmem
  | queued _ hqueue hnext ih => exact (ih.next hnext).1 hqueue
  | read _ hqueue hnot hnext ih => exact (ih.next hnext).2.1 hqueue hnot
  | ended _ hfinished hnext ih => exact (ih.next hnext).2.2 hfinished

/--
**The tokenizer.** Over any calls of `next` on a text: without a lone backslash at the end of the
text, no access is behind its terminating NUL. A token from the queue leaves `_next` where it is, and
a token from the text moves it on. As many calls as there are characters read the text, and twice as
many return a token. An empty token comes at the end, or from a name that is written empty.
-/
theorem calls_of_next (text : String) :
    (¬ Lone text.toList → ∀ reads calls t, Reached text reads calls t →
      ∀ index, t.next ≠ .outside index) ∧
    (∀ reads calls t token t', Reached text reads calls t → t.next = .returns (token, t') →
      (t.queue = token :: t'.queue ∧ t'.next_ = t.next_) ∨ (t.Finished ∧ token = "") ∨
        t.queue = [] ∧ t.next_ < t'.next_) ∧
    (∀ reads calls t, Reached text reads calls t →
      reads ≤ text.toList.length ∧ calls ≤ 2 * text.toList.length) ∧
    ∀ reads calls t t', Reached text reads calls t → t.next = .returns ("", t') →
      (t'.queue = [] ∧ text.toList.length ≤ t'.next_) ∨ WrittenEmpty text.toList := by
  refine ⟨?_, ?_, ?_, ?_⟩
  · intro hlone reads calls t ht
    have held := ht.held
    obtain rfl := held.text_eq
    exact (stays_next hlone (held.safe hlone)).1
  · intro reads calls t token t' _ hnext
    rcases next_cases hnext with ⟨hqueue, heq⟩ | ⟨hfinished, htoken, -⟩ | ⟨hqueue, -, htaken⟩
    · exact .inl ⟨hqueue, by rw [heq]⟩
    · exact .inr (.inl ⟨hfinished, htoken⟩)
    · have hshorter := htaken.shorter
      have htext : t'.text = t.text := htaken.same
      simp only [abs, List.length_drop, htext] at hshorter
      exact .inr (.inr ⟨hqueue, by omega⟩)
  · intro reads calls t ht
    have held := ht.held
    have hreads := held.reads_le
    have hcalls := held.calls_le
    exact ⟨by omega, by omega⟩
  · intro reads calls t t' ht hnext
    have held := ht.held
    obtain rfl := held.text_eq
    rcases next_cases hnext with ⟨hqueue, -⟩ | ⟨-, -, habs, hle⟩ | ⟨-, -, htaken⟩
    · exact .inr (held.empty (by rw [hqueue]; exact List.mem_cons_self))
    · exact .inl ⟨congrArg ExpTokenizer.queue habs, hle⟩
    · rcases htaken.empty t.text.toList (List.drop_suffix _ _) (.inl rfl) with
        hwritten | ⟨-, hrest, hqueue⟩
      · exact .inr hwritten
      · have hrest : t'.text.toList.drop t'.next_ = [] := hrest
        have htext : t'.text = t.text := htaken.same
        rw [List.drop_eq_nil_iff, htext] at hrest
        exact .inl ⟨hqueue, hrest⟩

/-- Quotes, braces, and backslashes in front of a quote and at the end. -/
def quoted : String := "\"a\\\"b\" IS \x7b'x y' z\x7d\\\\"

/-- The third token leaves five others in the queue. -/
theorem reached_quoted : Reached quoted 3 3 ⟨quoted, 17, 19, ["(", "x y", ",", "z", ")"]⟩ := by
  have hname : (new quoted).next = .returns ("a\"b", ⟨quoted, 0, 6, []⟩) := by decide +kernel
  have his : (IndexTokenizer.mk quoted 0 6 []).next = .returns ("IS", ⟨quoted, 7, 9, []⟩) := by
    decide +kernel
  have hbraces : (IndexTokenizer.mk quoted 7 9 []).next =
      .returns ("SERVICESTATUS", ⟨quoted, 17, 19, ["(", "x y", ",", "z", ")"]⟩) := by
    decide +kernel
  exact .read (.read (.read .new rfl (by decide +kernel) hname) rfl (by decide +kernel) his) rfl
    (by decide +kernel) hbraces

theorem calls_of_next_quoted :
    (∀ index, (IndexTokenizer.mk quoted 17 19 ["(", "x y", ",", "z", ")"]).next ≠ .outside index) ∧
      3 ≤ quoted.toList.length ∧ 3 ≤ 2 * quoted.toList.length :=
  ⟨(calls_of_next quoted).1 (by decide +kernel) _ _ _ reached_quoted,
    (calls_of_next quoted).2.2.1 _ _ _ reached_quoted⟩

/-- The parenthesis behind the first token of `{a}` does not come from the text. -/
theorem not_next_advances : ¬ ∀ (text : String) (reads calls : ℕ) (t : IndexTokenizer) (token : String)
    (t' : IndexTokenizer), Reached text reads calls t → t.next = .returns (token, t') → token ≠ "" →
      t.next_ < t'.next_ := by
  intro hall
  have hsame := next_sameToken (new "{a}")
  have habs : (new "{a}").abs.next = .ok ("HOSTSTATUS", ⟨"{a}", [], ["(", "a", ")"]⟩) := rfl
  rw [habs] at hsame
  cases hnext : (new "{a}").next with
  | outside index =>
    have hsafe := @stays_next (new "{a}") (by decide) ⟨Nat.zero_le _, id⟩
    exact hsafe.1 index hnext
  | throws message =>
    rw [hnext] at hsame
    exact hsame
  | returns r =>
    obtain ⟨token, t⟩ := r
    rw [hnext] at hsame
    obtain ⟨rfl, ht⟩ := hsame
    have hqueue : t.queue = ["(", "a", ")"] := congrArg ExpTokenizer.queue ht
    have hfinished : ¬ (new "{a}").Finished := by
      rintro ⟨-, hspace⟩
      have hbrace := hspace '{' (by decide)
      cases hbrace
    have hreached : Reached "{a}" 1 1 t := .read .new rfl hfinished hnext
    have hsecond : t.next = .returns ("(", { t with queue := ["a", ")"] }) := by
      rw [next, hqueue]
    have hlt := hall _ _ _ _ _ _ hreached hsecond (by decide)
    exact Nat.lt_irrefl _ hlt

end CentreonBroker.Bam.IndexTokenizer
