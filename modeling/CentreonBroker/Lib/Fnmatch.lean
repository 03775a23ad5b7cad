import Mathlib

/-!
# Shell patterns

`fnmatch` in the C locale, with `FNM_PATHNAME`, `FNM_NOESCAPE` and `FNM_PERIOD`: no
wildcard takes a slash, nor a period that begins a name, and a backslash is a character
like any other. A pattern is read once into tokens, which are then matched.
-/

namespace CentreonBroker.Fnmatch

/-- What stands between the brackets of a pattern. -/
inductive Item where
  | range (low high : Char)
  | charClass (name : List Char)

def Item.has : Item → Char → Bool
  | .range low high, c => low ≤ c ∧ c ≤ high
  | .charClass name, c =>
    if name = "alpha".toList then c.isAlpha
    else if name = "digit".toList then c.isDigit
    else if name = "alnum".toList then c.isAlphanum
    else if name = "upper".toList then c.isUpper
    else if name = "lower".toList then c.isLower
    else if name = "xdigit".toList then
      c.isDigit || ('a' ≤ c ∧ c ≤ 'f') || ('A' ≤ c ∧ c ≤ 'F')
    else if name = "space".toList then c = ' ' || (9 ≤ c.toNat ∧ c.toNat ≤ 13)
    else if name = "blank".toList then c = ' ' || c.toNat = 9
    else if name = "punct".toList then '!' ≤ c ∧ c ≤ '~' ∧ ¬ c.isAlphanum
    else if name = "graph".toList then '!' ≤ c ∧ c ≤ '~'
    else if name = "print".toList then ' ' ≤ c ∧ c ≤ '~'
    else if name = "cntrl".toList then c.toNat < 32 || c.toNat = 127
    else false

inductive Token where
  | star
  | any
  | set (negated : Bool) (items : List Item)
  | char (c : Char)

/-- The name of a character class, up to `:]`, and what follows. -/
def className : List Char → Option (List Char × List Char)
  | [] => none
  | c :: p =>
    if c = ':' ∧ p.head? = some ']' then some ([], p.tail)
    else (className p).map fun r => (c :: r.1, r.2)

/-- One item of a bracket expression that starts with `c`, and what follows. -/
def item (c : Char) (p : List Char) : Item × List Char :=
  match (if c = '[' ∧ p.head? = some ':' then className p.tail else none) with
  | some (name, p) => (.charClass name, p)
  | none =>
    match p with
    | '-' :: high :: q => if high = ']' then (.range c c, p) else (.range c high, q)
    | _ => (.range c c, p)

/--
The items of a bracket expression, up to the bracket that closes it, and what follows:
none when it is not closed, or has a slash in it. A closing bracket that comes first is an
item.
-/
def items : Nat → Bool → List Char → Option (List Item × List Char)
  | 0, _, _ => none
  | _, _, [] => none
  | n + 1, first, c :: p =>
    if c = ']' ∧ ¬ first then some ([], p)
    else if c = '/' then none
    else
      let (i, p) := item c p
      (items n false p).map fun r => (i :: r.1, r.2)

/-- A pattern, token by token. A bracket that opens nothing stands for itself. -/
def tokens : Nat → List Char → List Token
  | 0, _ => []
  | _, [] => []
  | n + 1, c :: p =>
    if c = '*' then .star :: tokens n p
    else if c = '?' then .any :: tokens n p
    else if c = '[' then
      let negated := p.head? = some '!' ∨ p.head? = some '^'
      match items p.length true (if negated then p.tail else p) with
      | some (is, rest) => .set negated is :: tokens n rest
      | none => .char c :: tokens n p
    else .char c :: tokens n p

/-- What a wildcard takes: not a slash, not a period in front. -/
def wild (leading : Bool) (c : Char) : Bool := c ≠ '/' ∧ ¬ (leading ∧ c = '.')

/-- A star takes nothing, or one character and then what a star takes. -/
def takeStar (k : Bool → List Char → Bool) : Bool → List Char → Bool
  | leading, [] => k leading []
  | leading, c :: s => k leading (c :: s) || (c ≠ '/' && takeStar k false s)

/-- The string from some point on: it is `leading` at its start and after a slash. -/
def matchTokens : List Token → Bool → List Char → Bool
  | [], _, s => s.isEmpty
  | .star :: ts, leading, s =>
    !(leading && s.head? = some '.') && takeStar (matchTokens ts) leading s
  | .any :: ts, leading, s =>
    match s with
    | [] => false
    | c :: s => wild leading c && matchTokens ts false s
  | .set negated is :: ts, leading, s =>
    match s with
    | [] => false
    | c :: s => wild leading c && (is.any (·.has c) != negated) && matchTokens ts false s
  | .char d :: ts, _, s =>
    match s with
    | [] => false
    | c :: s => c = d && matchTokens ts (c = '/') s

def fnmatch (pattern string : List Char) : Bool :=
  matchTokens (tokens pattern.length pattern) true string

/-! ## Prefix patterns -/

/-- A character that stands for itself in a pattern. -/
def Plain (c : Char) : Prop := c ≠ '*' ∧ c ≠ '?' ∧ c ≠ '['

instance : DecidablePred Plain := fun _ => inferInstanceAs (Decidable (_ ∧ _ ∧ _))

theorem tokens_plain {p : List Char} (hp : ∀ c ∈ p, Plain c) (n : Nat) (q : List Char) :
    tokens (p.length + n) (p ++ q) = p.map .char ++ tokens n q := by
  induction p with
  | nil => rw [List.length_nil, Nat.zero_add]; rfl
  | cons c p ih =>
    obtain ⟨h1, h2, h3⟩ := hp c List.mem_cons_self
    rw [List.length_cons, Nat.add_right_comm, List.cons_append, tokens, if_neg h1, if_neg h2,
      if_neg h3, ih fun c hc => hp c (List.mem_cons_of_mem _ hc)]
    rfl

theorem takeStar_end (leading : Bool) (s : List Char) :
    takeStar (matchTokens []) leading s = true ↔ '/' ∉ s := by
  induction s generalizing leading with
  | nil => simp [takeStar, matchTokens]
  | cons c s ih =>
    have hk : matchTokens [] leading (c :: s) = false := rfl
    rw [takeStar, hk, Bool.false_or, Bool.and_eq_true, ih, decide_eq_true_eq, List.mem_cons,
      not_or, ne_comm]

theorem matchTokens_star (leading : Bool) (s : List Char) :
    matchTokens [.star] leading s = true ↔ '/' ∉ s ∧ ¬ (leading ∧ s.head? = some '.') := by
  rw [matchTokens, Bool.and_eq_true, takeStar_end, and_comm]
  cases leading <;> simp

theorem matchTokens_chars {p : List Char} (ts : List Token) (leading : Bool) (s : List Char) :
    matchTokens (p.map .char ++ ts) leading s = true ↔
      ∃ t, s = p ++ t ∧ matchTokens ts (p.getLast?.elim leading (· = '/')) t = true := by
  induction p generalizing leading s with
  | nil => simp
  | cons d p ih =>
    rw [List.map_cons, List.cons_append]
    cases s with
    | nil => simp [matchTokens]
    | cons c s =>
      rw [matchTokens, Bool.and_eq_true, ih, decide_eq_true_eq]
      cases p with
      | nil => simp; grind
      | cons e p => simp [List.getLast?_cons_cons]; grind

/-- **A plain prefix and a star** match what starts with the prefix, up to a slash. -/
theorem fnmatch_prefix {p : List Char} (hp : ∀ c ∈ p, Plain c)
    (hlast : ∃ c, p.getLast? = some c ∧ c ≠ '/') (s : List Char) :
    fnmatch (p ++ ['*']) s = true ↔ ∃ t, s = p ++ t ∧ '/' ∉ t := by
  obtain ⟨c, hc, hslash⟩ := hlast
  have ht : tokens (p ++ ['*']).length (p ++ ['*']) = p.map .char ++ [.star] := by
    rw [List.length_append, tokens_plain hp]
    rfl
  rw [fnmatch, ht, matchTokens_chars]
  simp [hc, hslash, matchTokens_star]

end CentreonBroker.Fnmatch
