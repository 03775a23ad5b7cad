import CentreonBroker.Bam.ExpTokenizer

/-!
# The tokenizer on its indices

`exp_tokenizer` as it is written: two indices into the text, which end up behind its terminating
NUL when a backslash is the last character. Most accesses stand behind a test of their index, and
carry it here; `_skip_ws` has none, and reads until a character is no white space.

Where no access is outside, it is the tokenizer on what is left of the text.
-/

namespace CentreonBroker.Bam

/-- How a call ends: with a value, with an exception, or with an access outside of the text. -/
inductive Outcome (α : Type) where
  | returns (a : α)
  | throws (message : String)
  | outside (index : ℕ)
  deriving DecidableEq

namespace Outcome

variable {α β : Type}

def bind (x : Outcome α) (f : α → Outcome β) : Outcome β :=
  match x with
  | returns a => f a
  | throws message => throws message
  | outside index => outside index

instance : Monad Outcome where
  pure := returns
  bind := bind

theorem bind_returns {x : Outcome α} {f : α → Outcome β} {b : β} (h : (x >>= f) = returns b) :
    ∃ a, x = returns a ∧ f a = returns b := by
  cases x with
  | returns a => exact ⟨a, rfl, h⟩
  | throws message => cases h
  | outside index => cases h

theorem bind_outside {x : Outcome α} {f : α → Outcome β} {index : ℕ} (h : (x >>= f) = outside index) :
    x = outside index ∨ ∃ a, x = returns a ∧ f a = outside index := by
  cases x with
  | returns a => exact .inr ⟨a, rfl, h⟩
  | throws message => cases h
  | outside index' =>
    cases h
    exact .inl rfl

end Outcome

/-- The members of `exp_tokenizer`. `_size` is the length of the text. -/
structure IndexTokenizer where
  text : String
  current : ℕ
  next_ : ℕ
  queue : List String
  deriving DecidableEq

namespace IndexTokenizer

open ExpTokenizer (isspace isSpecialChar isDelimiter isRightBrace isSpaceOrRightBrace isKeyword isDouble
  Reading unterminated)

def new (text : String) : IndexTokenizer := ⟨text, 0, 0, []⟩

/-- `_text[i]` where nothing was tested: a character, the terminating NUL, or an access outside. -/
def charAt (text : List Char) (i : ℕ) : Outcome Char :=
  if h : i < text.length then .returns text[i]
  else if i = text.length then .returns '\x00'
  else .outside i

variable {text : List Char} {i : ℕ}

theorem le_of_charAt {c : Char} (h : charAt text i = .returns c) :
    i ≤ text.length := by
  unfold charAt at h
  split at h
  · omega
  · split at h
    · omega
    · cases h

/-- `_skip_ws`, from an index. -/
def skipWs (text : List Char) (i : ℕ) : Outcome ℕ :=
  match _h : charAt text i with
  | .returns c => if isspace c then skipWs text (i + 1) else .returns i
  | .throws message => .throws message
  | .outside index => .outside index
termination_by text.length + 1 - i
decreasing_by
  have := le_of_charAt _h
  omega

/-- `_extract_until`, from `_next = i`: the token, and `_next` behind it. -/
def extractUntil (predicate : Char → Bool) (exp : String) (text : List Char) :
    Reading → ℕ → Outcome (List Char × ℕ)
  | .plain, i =>
    if h : i < text.length then
      if predicate text[i] then .returns ([], i)
      else if text[i] = '\'' ∨ text[i] = '"' then
        extractUntil predicate exp text (.quoted text[i]) (i + 1)
      else if text[i] = '\\' then extractUntil predicate exp text .escape (i + 1)
      else do
        let r ← extractUntil predicate exp text .plain (i + 1)
        .returns (text[i] :: r.1, r.2)
    else .returns ([], i)
  | .escape, i =>
    if h : i < text.length then do
      let r ← extractUntil predicate exp text .plain (i + 1)
      .returns (text[i] :: r.1, r.2)
    -- `_next` is incremented once more after the switch
    else .returns ([], i + 1)
  | .quoted q, i =>
    if h : i < text.length then
      if text[i] = q then extractUntil predicate exp text .plain (i + 1)
      else if q = '"' ∧ text[i] = '\\' then extractUntil predicate exp text .quotedEscape (i + 1)
      else do
        let r ← extractUntil predicate exp text (.quoted q) (i + 1)
        .returns (text[i] :: r.1, r.2)
    else .throws (unterminated q exp)
  | .quotedEscape, i =>
    if h : i < text.length then do
      let r ← extractUntil predicate exp text (.quoted '"') (i + 1)
      .returns (text[i] :: r.1, r.2)
    else .throws (unterminated '"' exp)
termination_by _ i => text.length - i

/-- The end of a token between braces. -/
def closeBrace (t : IndexTokenizer) (token : String) : Outcome (String × IndexTokenizer) :=
  if h : t.next_ < t.text.toList.length then
    if t.text.toList[t.next_] = '}' then .returns (token, { t with next_ := t.next_ + 1 })
    else .throws ("opening brace at position " ++ toString t.current ++ " has no ending brace ")
  else .throws ("opening brace at position " ++ toString t.current ++ " has no ending brace ")

/-- The part of `_extract_token` about braces, after `++_current`. -/
def extractBrace (t : IndexTokenizer) : Outcome (String × IndexTokenizer) := do
  let (name, next) ← extractUntil isSpaceOrRightBrace t.text t.text.toList .plain t.current
  if isKeyword (String.ofList name) then closeBrace { t with next_ := next } (String.ofList name)
  else do
    let queue := t.queue ++ ["(", String.ofList name]
    let current ← skipWs t.text.toList next
    if h : current < t.text.toList.length then
      if t.text.toList[current] ≠ '}' then do
        let (service, next) ← extractUntil isRightBrace t.text t.text.toList .plain current
        closeBrace ⟨t.text, current, next, queue ++ [",", String.ofList service, ")"]⟩ "SERVICESTATUS"
      else closeBrace ⟨t.text, current, current, queue ++ [")"]⟩ "HOSTSTATUS"
    else closeBrace ⟨t.text, current, current, queue ++ [")"]⟩ "HOSTSTATUS"

/-- `_extract_token`, at an index of the text. -/
def extractToken (t : IndexTokenizer) (h : t.current < t.text.toList.length) :
    Outcome (String × IndexTokenizer) :=
  if t.text.toList[t.current] = '{' then extractBrace { t with current := t.current + 1 }
  else do
    let (token, next) ← extractUntil isDelimiter t.text t.text.toList .plain t.current
    .returns (String.ofList token, { t with next_ := next })

/-- The part of `next` that reads the text, after `_skip_ws`. -/
def readToken (t : IndexTokenizer) : Outcome (String × IndexTokenizer) :=
  if h : t.current < t.text.toList.length then
    if isSpecialChar t.text.toList[t.current] then
      if h' : t.current + 1 < t.text.toList.length then
        if isDouble t.text.toList[t.current] t.text.toList[t.current + 1] then
          .returns (String.ofList [t.text.toList[t.current], t.text.toList[t.current + 1]],
            { t with next_ := t.current + 2 })
        else .returns (String.ofList [t.text.toList[t.current]], { t with next_ := t.current + 1 })
      else .returns (String.ofList [t.text.toList[t.current]], { t with next_ := t.current + 1 })
    else extractToken t h
  else .returns ("", t)

/-- `next`. -/
def next (t : IndexTokenizer) : Outcome (String × IndexTokenizer) :=
  match t.queue with
  | token :: queue => .returns (token, { t with queue := queue })
  | [] => do
    let current ← skipWs t.text.toList t.next_
    readToken { t with current := current, next_ := current }

/-! ## What is left of the text -/

/-- The tokenizer without its indices. -/
def abs (t : IndexTokenizer) : ExpTokenizer := ⟨t.text, t.text.toList.drop t.next_, t.queue⟩

theorem drop_eq_cons (h : i < text.length) :
    text.drop i = text[i] :: text.drop (i + 1) := List.drop_eq_getElem_cons h

theorem drop_eq_nil (h : ¬ i < text.length) : text.drop i = [] :=
  List.drop_eq_nil_of_le (Nat.le_of_not_lt h)

theorem charAt_le (h : i ≤ text.length) : ∃ c, charAt text i = .returns c := by
  unfold charAt
  split
  · exact ⟨_, rfl⟩
  · rw [if_pos (by omega)]
    exact ⟨_, rfl⟩

/-- From an index of the text or of its end, white space is skipped up to such an index. -/
theorem skipWs_le (h : i ≤ text.length) :
    ∃ j, skipWs text i = .returns j ∧ i ≤ j ∧ j ≤ text.length ∧
      text.drop j = ExpTokenizer.skipWs (text.drop i) ∧
      ∀ c ∈ text[j - 1]?, i < j → isspace c = true := by
  fun_induction skipWs text i with
  | case1 i c hc hspace ih =>
    have hlt : i < text.length := by
      by_contra hge
      unfold charAt at hc
      rw [dif_neg hge, if_pos (by omega)] at hc
      cases hc
      cases hspace
    have hchar : text[i] = c := by
      unfold charAt at hc
      rw [dif_pos hlt] at hc
      cases hc
      rfl
    obtain ⟨j, hj, hle, hlength, hdrop, hlast⟩ := ih hlt
    refine ⟨j, hj, by omega, hlength, ?_, ?_⟩
    · rw [hdrop, drop_eq_cons hlt, ExpTokenizer.skipWs, ExpTokenizer.skipWs,
        List.dropWhile_cons_of_pos (by rw [hchar]; exact hspace)]
    · intro d hd hij
      by_cases hnext : i + 1 < j
      · exact hlast d hd hnext
      · have hd : text[i]? = some d := by
          rw [show j - 1 = i by omega] at hd
          exact hd
        rw [List.getElem?_eq_getElem hlt, hchar] at hd
        cases hd
        exact hspace
  | case2 i c hc hspace =>
    refine ⟨i, rfl, Nat.le_refl i, h, ?_, fun d _ hlt => absurd hlt (Nat.lt_irrefl i)⟩
    by_cases hlt : i < text.length
    · have hchar : text[i] = c := by
        unfold charAt at hc
        rw [dif_pos hlt] at hc
        cases hc
        rfl
      rw [drop_eq_cons hlt, ExpTokenizer.skipWs, List.dropWhile_cons_of_neg (by rw [hchar]; exact hspace)]
    · rw [drop_eq_nil hlt]
      rfl
  | case3 i message hc | case4 i index hc =>
    obtain ⟨c, hc'⟩ := charAt_le h
    rw [hc'] at hc
    cases hc

/-- Behind the end of the text, the first access is outside. -/
theorem skipWs_gt (h : text.length < i) : skipWs text i = .outside i := by
  have hc : charAt text i = .outside i := by
    rw [charAt, dif_neg (by omega), if_neg (by omega)]
  rw [skipWs]
  split
  · rename_i c hc'
    rw [hc] at hc'
    cases hc'
  · rename_i message hc'
    rw [hc] at hc'
    cases hc'
  · rename_i index hc'
    rw [hc] at hc'
    obtain rfl := Outcome.outside.inj hc'
    rfl

/-- The same token, with an index in the place of what is left, or the same exception. -/
def SameWord (text : List Char) : Outcome (List Char × ℕ) → Except String (List Char × List Char) → Prop
  | .returns (token, i), .ok (token', rest) => token = token' ∧ text.drop i = rest
  | .throws message, .error message' => message = message'
  | _, _ => False

theorem SameWord.keep {x : Outcome (List Char × ℕ)}
    {y : Except String (List Char × List Char)} (h : SameWord text x y) (c : Char) :
    SameWord text (do let r ← x; .returns (c :: r.1, r.2)) (y.map fun r => (c :: r.1, r.2)) := by
  match x, y, h with
  | .returns (token, i), .ok (token', rest), ⟨htoken, hrest⟩ => exact ⟨congrArg _ htoken, hrest⟩
  | .throws message, .error message', h => exact h

theorem extractUntil_sameWord (predicate : Char → Bool) (exp : String) (text : List Char) (r : Reading)
    (i : ℕ) : SameWord text (extractUntil predicate exp text r i)
      (ExpTokenizer.extractUntil predicate exp r (text.drop i)) := by
  fun_induction extractUntil predicate exp text r i with
  | case1 i h hp =>
    rw [drop_eq_cons h, ExpTokenizer.extractUntil, if_pos hp]
    exact ⟨rfl, drop_eq_cons h⟩
  | case2 i h hp hq ih =>
    rw [drop_eq_cons h, ExpTokenizer.extractUntil, if_neg hp, if_pos hq]
    exact ih
  | case3 i h hp hq hslash ih =>
    rw [drop_eq_cons h, ExpTokenizer.extractUntil, if_neg hp, if_neg hq, if_pos hslash]
    exact ih
  | case4 i h hp hq hslash ih =>
    rw [drop_eq_cons h, ExpTokenizer.extractUntil, if_neg hp, if_neg hq, if_neg hslash]
    exact ih.keep _
  | case5 i h =>
    rw [drop_eq_nil h]
    exact ⟨rfl, drop_eq_nil h⟩
  | case6 i h ih | case12 i h ih =>
    rw [drop_eq_cons h, ExpTokenizer.extractUntil]
    exact ih.keep _
  | case7 i h =>
    rw [drop_eq_nil h]
    exact ⟨rfl, drop_eq_nil (by omega)⟩
  | case8 i h ih =>
    rw [drop_eq_cons h, ExpTokenizer.extractUntil, if_pos rfl]
    exact ih
  | case9 q i h hne hslash ih =>
    rw [drop_eq_cons h, ExpTokenizer.extractUntil, if_neg hne, if_pos hslash]
    exact ih
  | case10 q i h hne hslash ih =>
    rw [drop_eq_cons h, ExpTokenizer.extractUntil, if_neg hne, if_neg hslash]
    exact ih.keep _
  | case11 q i h =>
    rw [drop_eq_nil h]
    exact rfl
  | case13 i h =>
    rw [drop_eq_nil h]
    exact rfl

/-- The same token and what is left, or the same exception, or an access outside. -/
def SameToken : Outcome (String × IndexTokenizer) → Except String (String × ExpTokenizer) → Prop
  | .returns (token, t), .ok (token', u) => token = token' ∧ t.abs = u
  | .throws message, .error message' => message = message'
  | .outside _, _ => True
  | _, _ => False

variable {u : ExpTokenizer} {t : IndexTokenizer}

theorem closeBrace_sameToken (ht : t.current ≤ t.text.toList.length)
    (token : String) (hu : u.text = t.text) :
    SameToken (t.closeBrace token)
      (u.closeBrace (t.text.toList.drop t.current) token (t.text.toList.drop t.next_) t.queue) := by
  have hposition : t.text.length - (t.text.toList.drop t.current).length = t.current := by
    rw [List.length_drop, String.length_toList]
    rw [String.length_toList] at ht
    omega
  unfold closeBrace ExpTokenizer.closeBrace
  rw [hu, hposition]
  split
  · rename_i h
    rw [drop_eq_cons h]
    split
    · rename_i hbrace
      rw [hbrace]
      refine ⟨rfl, ?_⟩
      rw [abs]
    · rename_i hbrace
      split
      · rename_i hcons
        exact absurd (List.cons.inj hcons).1 hbrace
      · rfl
  · rename_i h
    rw [drop_eq_nil h]
    exact rfl

/-- The second name between braces. -/
theorem extractService_sameToken {text : String} {j : ℕ} (hj : j ≤ text.toList.length)
    (queue : List String) (hu : u.text = text) {cs : List Char}
    (hcs : text.toList.drop j = cs) :
    SameToken
      (do
        let (service, next) ← extractUntil isRightBrace text text.toList .plain j
        closeBrace ⟨text, j, next, queue ++ [",", String.ofList service, ")"]⟩ "SERVICESTATUS")
      (do
        let (service, rest) ← ExpTokenizer.extractUntil isRightBrace text .plain cs
        u.closeBrace cs "SERVICESTATUS" rest (queue ++ [",", String.ofList service, ")"])) := by
  have hservice := extractUntil_sameWord isRightBrace text text.toList .plain j
  rw [← hcs]
  match hx : extractUntil isRightBrace text text.toList .plain j,
    hy : ExpTokenizer.extractUntil isRightBrace text .plain (text.toList.drop j) with
  | .throws message, .error message' =>
    rw [hx, hy] at hservice
    exact hservice
  | .returns (service, next), .ok (service', rest) =>
    rw [hx, hy] at hservice
    obtain ⟨rfl, rfl⟩ := hservice
    exact closeBrace_sameToken (t := ⟨text, j, next, _⟩) hj _ hu
  | .throws message, .ok r =>
    rw [hx, hy] at hservice
    exact hservice.elim
  | .returns (service, next), .error message' =>
    rw [hx, hy] at hservice
    exact hservice.elim
  | .outside index, y =>
    rw [hx] at hservice
    exact hservice.elim

theorem extractBrace_sameToken (ht : t.current ≤ t.text.toList.length)
    (hu : u.text = t.text) (hqueue : u.queue = t.queue) :
    SameToken t.extractBrace (u.extractBrace (t.text.toList.drop t.current)) := by
  have hname := extractUntil_sameWord isSpaceOrRightBrace t.text t.text.toList .plain t.current
  unfold extractBrace ExpTokenizer.extractBrace
  rw [hu, hqueue]
  match hx : extractUntil isSpaceOrRightBrace t.text t.text.toList .plain t.current,
    hy : ExpTokenizer.extractUntil isSpaceOrRightBrace t.text .plain (t.text.toList.drop t.current) with
  | .throws message, .error message' =>
    rw [hx, hy] at hname
    exact hname
  | .returns (name, next), .ok (name', rest) =>
    rw [hx, hy] at hname
    obtain ⟨rfl, rfl⟩ := hname
    show SameToken (if isKeyword (String.ofList name) then _ else _)
      (if isKeyword (String.ofList name) then _ else _)
    split
    · exact closeBrace_sameToken (t := { t with next_ := next }) ht _ hu
    · by_cases hnext : next ≤ t.text.toList.length
      · obtain ⟨j, hj, -, hlength, hdrop, -⟩ := skipWs_le hnext
        rw [hj, ← hdrop]
        have hhost : SameToken (closeBrace ⟨t.text, j, j, t.queue ++ ["(", String.ofList name] ++ [")"]⟩
            "HOSTSTATUS") (u.closeBrace (t.text.toList.drop j) "HOSTSTATUS" (t.text.toList.drop j)
              (t.queue ++ ["(", String.ofList name] ++ [")"])) :=
          closeBrace_sameToken (t := ⟨t.text, j, j, _⟩) hlength _ hu
        show SameToken (if h : j < t.text.toList.length then _ else _) _
        split
        · rename_i h
          have hcons := drop_eq_cons h
          rw [hcons] at hhost ⊢
          simp only
          split
          · exact extractService_sameToken hlength _ hu hcons
          · exact hhost
        · rename_i h
          rw [drop_eq_nil h] at hhost ⊢
          exact hhost
      · rw [skipWs_gt (Nat.lt_of_not_le hnext)]
        trivial
  | .throws message, .ok r =>
    rw [hx, hy] at hname
    exact hname.elim
  | .returns (name, next), .error message' =>
    rw [hx, hy] at hname
    exact hname.elim
  | .outside index, y =>
    rw [hx] at hname
    exact hname.elim

theorem extractToken_sameToken (h : t.current < t.text.toList.length)
    (hu : u.text = t.text) (hqueue : u.queue = t.queue) :
    SameToken (t.extractToken h)
      (u.extractToken t.text.toList[t.current] (t.text.toList.drop (t.current + 1))) := by
  unfold extractToken ExpTokenizer.extractToken
  split
  · exact extractBrace_sameToken (t := { t with current := t.current + 1 }) h hu hqueue
  · have hword := extractUntil_sameWord isDelimiter t.text t.text.toList .plain t.current
    rw [← drop_eq_cons h, hu, hqueue]
    match hx : extractUntil isDelimiter t.text t.text.toList .plain t.current,
      hy : ExpTokenizer.extractUntil isDelimiter t.text .plain (t.text.toList.drop t.current) with
    | .throws message, .error message' =>
      rw [hx, hy] at hword
      exact hword
    | .returns (token, next), .ok (token', rest) =>
      rw [hx, hy] at hword
      obtain ⟨rfl, rfl⟩ := hword
      exact ⟨rfl, rfl⟩
    | .throws message, .ok r =>
      rw [hx, hy] at hword
      exact hword.elim
    | .returns r, .error message' =>
      rw [hx, hy] at hword
      exact hword.elim
    | .outside index, y =>
      rw [hx] at hword
      exact hword.elim

/-- **The tokenizer on its indices is the one on what is left of the text**, but for an access
outside of the text. -/
theorem next_sameToken (t : IndexTokenizer) : SameToken t.next t.abs.next := by
  obtain ⟨text, current, next, queue⟩ := t
  cases queue with
  | cons token queue => exact ⟨rfl, rfl⟩
  | nil =>
    by_cases hnext : next ≤ text.toList.length
    · obtain ⟨j, hj, -, hlength, hdrop, -⟩ := skipWs_le hnext
      have hread : IndexTokenizer.next ⟨text, current, next, []⟩ = readToken ⟨text, j, j, []⟩ := by
        simp only [IndexTokenizer.next, hj]
        rfl
      rw [hread]
      simp only [abs, ExpTokenizer.next, ← hdrop]
      unfold readToken
      by_cases h : j < text.toList.length
      · rw [dif_pos h, drop_eq_cons h]
        simp only
        split
        · -- a special character, with the one behind it
          by_cases h' : j + 1 < text.toList.length
          · rw [dif_pos h', drop_eq_cons h']
            simp only
            split
            · exact ⟨rfl, rfl⟩
            · exact ⟨rfl, by simp only [abs, drop_eq_cons h']⟩
          · rw [dif_neg h', drop_eq_nil h']
            exact ⟨rfl, by simp only [abs, drop_eq_nil h']⟩
        · exact extractToken_sameToken (t := ⟨text, j, j, []⟩) h rfl rfl
      · rw [dif_neg h, drop_eq_nil h]
        exact ⟨rfl, by simp only [abs, drop_eq_nil h]⟩
    · have hread : IndexTokenizer.next ⟨text, current, next, []⟩ = .outside next := by
        simp only [IndexTokenizer.next, skipWs_gt (Nat.lt_of_not_le hnext)]
        rfl
      rw [hread]
      trivial

end IndexTokenizer

end CentreonBroker.Bam
