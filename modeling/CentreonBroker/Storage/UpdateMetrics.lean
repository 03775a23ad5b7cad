import CentreonBroker.Storage.PerfdataFields

/-!
# The update of the metrics

Each metric that changed is written as a tuple of a single statement. A value that is not there is
`NULL`; an infinite one is printed like a number. The unit is escaped, cut, and put between quotes. How a
finite `double` is printed is a parameter.
-/

namespace CentreonBroker.Storage

open Strtod Misc Misc.Escape Perfdata

/-- `metric_info`. -/
structure MetricInfo where
  metricId : ℕ
  type : DataType
  value : Double
  unitName : Bytes
  warn : Double
  warnLow : Double
  warnMode : Bool
  crit : Double
  critLow : Double
  critMode : Bool
  min : Double
  max : Double

namespace MetricInfo

def lparen : UInt8 := 0x28

def rparen : UInt8 := 0x29

/-- What `_storage_process_service_status` makes of a metric that changed. -/
def update (m : MetricInfo) (pd : Perfdata) : MetricInfo :=
  { m with
    unitName := pd.unit
    value := pd.value
    warn := pd.warning
    warnLow := pd.warningLow
    crit := pd.critical
    critLow := pd.criticalLow
    warnMode := pd.warningMode
    critMode := pd.criticalMode
    min := pd.min
    max := pd.max }

section

variable (print : ℚ → Bytes)

/-- `fmt::format("{}", v)`. -/
def format : Double → Bytes
  | .nan => [0x6E, 0x61, 0x6E]
  | .infinity negative => (if negative then [0x2D] else []) ++ [0x69, 0x6E, 0x66]
  | .number q => print q

/-- A NaN is `NULL`. -/
def nullable (v : Double) : Bytes := if v = .nan then [0x4E, 0x55, 0x4C, 0x4C] else format print v

def mode (b : Bool) : Bytes := if b then [0x31] else [0x30]

def quoted (s : Bytes) : Bytes := quote :: (s ++ [quote])

/-- An integer. -/
def integer (n : ℕ) : Bytes := (Nat.toDigits 10 n).map fun c => UInt8.ofNat c.toNat

/-- The fields behind the first one. -/
def fields (m : MetricInfo) (unit : Bytes) : List Bytes :=
  [quoted unit, nullable print m.warn, nullable print m.warnLow, quoted (mode m.warnMode),
    nullable print m.crit, nullable print m.critLow, quoted (mode m.critMode), nullable print m.min,
    nullable print m.max, format print m.value]

/-- A tuple of `_update_metrics`; there is none where `escape` leaves the unit. -/
def tuple (m : MetricInfo) : Option Bytes :=
  (escape m.unitName unitNameSize).map fun unit =>
    lparen :: (integer m.metricId ++ ((m.fields print unit).flatMap (comma :: ·) ++ [rparen]))

end

end MetricInfo

open MetricInfo

/-! ## Values in a statement -/

inductive SqlValue where
  | null
  | number (text : Bytes)
  | string (content : Bytes)

def SqlValue.Numeric : SqlValue → Prop
  | null => True
  | number _ => True
  | string _ => False

/-- The content of a literal, and what is behind its quote. Two quotes are one. -/
def readQuoted : Bytes → Option (Bytes × Bytes)
  | [] => none
  | [c] => if c = quote then some ([], []) else none
  | c :: d :: ds =>
    if c = backslash then (readQuoted ds).map fun x => (d :: x.1, x.2)
    else if c = quote then
      if d = quote then (readQuoted ds).map fun x => (quote :: x.1, x.2) else some ([], d :: ds)
    else (readQuoted (d :: ds)).map fun x => (c :: x.1, x.2)

/-- Digits with a point and an exponent. -/
def isDecimalChar (c : UInt8) : Bool :=
  isDigit c || c == 0x2B || c == 0x2D || c == 0x2E || lower c == 0x65

/-- A decimal number with a sign. -/
def signedDecimal : Scan ℚ := do
  let _ ← sign
  decimal

def isDecimal (s : Bytes) : Bool := s.all isDecimalChar && (signedDecimal s).any (·.2.isEmpty)

/-- What is not between quotes. -/
def bare (s : Bytes) : Option SqlValue :=
  if s = [0x4E, 0x55, 0x4C, 0x4C] then some .null
  else if isDecimal s then some (.number s)
  else none

def isToken (c : UInt8) : Bool := c != comma && c != rparen

def readValue (s : Bytes) : Option (SqlValue × Bytes) :=
  if s.head? = some quote then (readQuoted s.tail).map fun x => (.string x.1, x.2)
  else (bare (s.takeWhile isToken)).map fun v => (v, s.dropWhile isToken)

/-- As many values, each behind a comma, and the end of the tuple. -/
def readValues : ℕ → Bytes → Option (List SqlValue)
  | 0, s => if s = [rparen] then some [] else none
  | n + 1, s =>
    if s.head? = some comma then
      (readValue s.tail).bind fun x => (readValues n x.2).map (x.1 :: ·)
    else none

/-- A tuple of a value and some more. -/
def readTuple (n : ℕ) (s : Bytes) : Option (List SqlValue) :=
  if s.head? = some lparen then (readValue s.tail).bind fun x => (readValues n x.2).map (x.1 :: ·)
  else none

/-- The eleven fields of a tuple are there. Each number is one or `NULL`, and the literal of the unit
is what stands between its quotes. -/
def ValidTuple (m : MetricInfo) (t : Bytes) : Prop :=
  ∃ id unit warn warnLow warnMode crit critLow critMode min max value,
    readTuple 10 t = some [.number id, .string unit, warn, warnLow, .string warnMode, crit, critLow,
      .string critMode, min, max, value] ∧
    (∀ v ∈ [warn, warnLow, crit, critLow, min, max, value], v.Numeric) ∧
    ∃ out, escape m.unitName unitNameSize = some out ∧ unescape out = some unit

/-- One of the numbers of a metric is infinite. -/
def Perfdata.Infinite (pd : Perfdata) : Prop :=
  ∃ v ∈ [pd.warning, pd.warningLow, pd.critical, pd.criticalLow, pd.min, pd.max, pd.value],
    ∃ negative, v = .infinity negative

/-! ## Fields -/

/-- In front of a comma or of the end, a text is read as a value, or refused. -/
def Reads (f : Bytes) (v : Option SqlValue) : Prop :=
  ∀ c r, c = comma ∨ c = rparen → readValue (f ++ c :: r) = v.map fun v => (v, c :: r)

/-- Nothing that ends a field or a literal. -/
def Plain (f : Bytes) : Prop := ∀ c ∈ f, isToken c = true ∧ isSpecial c = false

theorem reads_bare {f : Bytes} (hf : Plain f) : Reads f (bare f) := by
  intro c r hc
  have hstop : ∀ d ∈ (c :: r).head?, isToken d = false := by
    intro d hd
    cases hd
    rcases hc with rfl | rfl <;> rfl
  have htoken : ∀ d ∈ f, isToken d = true := fun d hd => (hf d hd).1
  have hquote : (f ++ c :: r).head? ≠ some quote := by
    cases f with
    | nil =>
      rcases hc with rfl | rfl <;> simp [quote, comma, rparen]
    | cons d f =>
      have hd := (hf d List.mem_cons_self).2
      intro h
      cases h
      cases hd
  rw [readValue, if_neg hquote, takeWhile_append_stop _ hstop, dropWhile_append_stop _ hstop,
    List.takeWhile_eq_self_iff.mpr htoken, List.dropWhile_eq_nil_iff.mpr htoken, List.nil_append]

theorem readQuoted_escaped (p : Bytes) {r : Bytes} (hr : r ≠ []) :
    readQuoted (escaped p ++ r) = (readQuoted r).map fun x => (p ++ x.1, x.2) := by
  induction p with
  | nil =>
    show readQuoted r = (readQuoted r).map fun x => (x.1, x.2)
    cases readQuoted r <;> rfl
  | cons c p ih =>
    cases hc : isSpecial c with
    | true =>
      rw [escaped_special hc, List.cons_append, List.cons_append, readQuoted, if_pos rfl, ih]
      cases readQuoted r <;> rfl
    | false =>
      obtain ⟨hbackslash, hquote⟩ := ne_of_ordinary hc
      rw [escaped_ordinary hc, List.cons_append]
      obtain ⟨d, ds, hds⟩ : ∃ d ds, escaped p ++ r = d :: ds := by
        cases h : escaped p ++ r with
        | nil => exact absurd (List.append_eq_nil_iff.mp h).2 hr
        | cons d ds => exact ⟨d, ds, rfl⟩
      rw [hds, readQuoted, if_neg hbackslash, if_neg (by exact hquote), ← hds, ih]
      cases readQuoted r <;> rfl

/-- A literal that is closed. -/
theorem reads_quoted (p : Bytes) : Reads (quoted (escaped p)) (some (.string p)) := by
  intro c r hc
  have hend : readQuoted (quote :: c :: r) = some ([], c :: r) := by
    rw [readQuoted, if_neg (by decide), if_pos rfl, if_neg]
    rcases hc with rfl | rfl <;> decide
  have htext : quoted (escaped p) ++ c :: r = quote :: (escaped p ++ quote :: c :: r) := by
    simp [quoted]
  rw [htext, readValue, if_pos List.head?_cons, List.tail_cons, readQuoted_escaped p (by simp), hend]
  simp

/-- The numbers of a format that is a decimal number. -/
theorem plain_of_decimal {f : Bytes} (h : isDecimal f = true) : Plain f := by
  intro c hc
  have hchar := List.all_eq_true.mp (Bool.and_eq_true_iff.mp h).1 c hc
  have hnot : ∀ d : UInt8, isDecimalChar d = false → c ≠ d := by
    intro d hd heq
    rw [heq, hd] at hchar
    cases hchar
  refine ⟨?_, ?_⟩
  · simp [isToken, hnot comma rfl, hnot rparen rfl]
  · simp [isSpecial, hnot quote rfl, hnot backslash rfl]

variable {print : ℚ → Bytes}

theorem bare_number {f : Bytes} (h : isDecimal f = true) : bare f = some (.number f) := by
  rw [bare, if_neg, if_pos h]
  intro heq
  rw [heq] at h
  cases h

theorem bare_format (hprint : ∀ q, isDecimal (print q) = true) (v : Double) :
    Plain (format print v) ∧ ((∃ q, v = .number q) → ∃ t, bare (format print v) = some (.number t)) ∧
      ((¬ ∃ q, v = .number q) → bare (format print v) = none) := by
  cases v with
  | nan =>
    refine ⟨by simp [format, Plain, isToken, comma, rparen, isSpecial, quote, backslash], ?_,
      fun _ => rfl⟩
    rintro ⟨q, hq⟩
    cases hq
  | infinity negative =>
    refine ⟨?_, ?_, fun _ => ?_⟩
    · cases negative <;>
        simp [format, Plain, isToken, comma, rparen, isSpecial, quote, backslash]
    · rintro ⟨q, hq⟩
      cases hq
    · cases negative <;> rfl
  | number q =>
    exact ⟨plain_of_decimal (hprint q), fun _ => ⟨print q, bare_number (hprint q)⟩,
      fun hnot => absurd ⟨q, rfl⟩ hnot⟩

/-- A value that may be `NULL` is read as a number or `NULL`, unless it is infinite. -/
theorem reads_nullable (hprint : ∀ q, isDecimal (print q) = true) (v : Double) :
    ∃ r, Reads (nullable print v) r ∧ Plain (nullable print v) ∧ (∀ x ∈ r, x.Numeric) ∧
      (r.isSome = true ↔ ¬ ∃ negative, v = .infinity negative) := by
  by_cases hnan : v = .nan
  · refine ⟨some .null, ?_, ?_, ?_, ?_⟩
    · rw [nullable, if_pos hnan]
      exact reads_bare (by simp [Plain, isToken, comma, rparen, isSpecial, quote, backslash])
    · rw [nullable, if_pos hnan]
      simp [Plain, isToken, comma, rparen, isSpecial, quote, backslash]
    · intro x hx
      cases hx
      trivial
    · simp [hnan]
  · obtain ⟨hplain, hnumber, hnone⟩ := bare_format hprint v
    rw [nullable, if_neg hnan]
    refine ⟨bare (format print v), reads_bare hplain, hplain, ?_, ?_⟩
    · intro x hx
      by_cases hq : ∃ q, v = .number q
      · obtain ⟨t, ht⟩ := hnumber hq
        rw [ht] at hx
        cases hx
        trivial
      · rw [hnone hq] at hx
        cases hx
    · cases v with
      | nan => exact absurd rfl hnan
      | infinity negative => simp [hnone]
      | number q =>
        obtain ⟨t, ht⟩ := hnumber ⟨q, rfl⟩
        simp [ht]

theorem plain_mode (b : Bool) : escaped (mode b) = mode b := by cases b <;> rfl

/-- One value after the other. -/
theorem readValues_cons {f : Bytes} {v : Option SqlValue} (h : Reads f v) (n : ℕ) (fs : List Bytes) :
    readValues (n + 1) ((f :: fs).flatMap (comma :: ·) ++ [rparen]) =
      v.bind fun x => (readValues n (fs.flatMap (comma :: ·) ++ [rparen])).map (x :: ·) := by
  have hrest : ∃ c r, fs.flatMap (comma :: ·) ++ [rparen] = c :: r ∧ (c = comma ∨ c = rparen) := by
    cases fs with
    | nil => exact ⟨rparen, [], rfl, .inr rfl⟩
    | cons g gs => exact ⟨comma, g ++ gs.flatMap (comma :: ·) ++ [rparen], by simp, .inl rfl⟩
  obtain ⟨c, r, hcr, hc⟩ := hrest
  have htext : (f :: fs).flatMap (comma :: ·) ++ [rparen] =
      comma :: (f ++ (fs.flatMap (comma :: ·) ++ [rparen])) := by
    simp
  rw [htext, readValues, if_pos List.head?_cons, List.tail_cons, hcr, h c r hc]
  cases v <;> rfl

theorem isDigit_integer (n : ℕ) : ∀ c ∈ integer n, isDigit c = true := by
  intro c hc
  obtain ⟨d, hd, rfl⟩ := List.mem_map.mp hc
  have hdigit := Nat.isDigit_of_mem_toDigits (by decide) (by decide) hd
  obtain ⟨hlow, hhigh⟩ := Bool.and_eq_true_iff.mp hdigit
  have hlow' : 48 ≤ d.toNat := of_decide_eq_true hlow
  have hhigh' : d.toNat ≤ 57 := of_decide_eq_true hhigh
  have hbyte : (UInt8.ofNat d.toNat).toNat = d.toNat := by
    rw [UInt8.toNat_ofNat']
    exact Nat.mod_eq_of_lt (by omega)
  rw [isDigit, Bool.and_eq_true, decide_eq_true_eq, decide_eq_true_eq, UInt8.le_iff_toNat_le,
    UInt8.le_iff_toNat_le, hbyte]
  exact ⟨hlow', hhigh'⟩

theorem isDecimal_integer (n : ℕ) : isDecimal (integer n) = true := by
  have hdigits := isDigit_integer n
  have hne : integer n ≠ [] := by simp [integer]
  have hscan : signedDecimal (integer n) = some ((digitsValue 10 (integer n) : ℚ), []) := by
    cases h : integer n with
    | nil => exact absurd h hne
    | cons c s =>
      rw [h] at hdigits
      rw [signedDecimal, bind_some (sign_digit (hdigits c List.mem_cons_self) s)]
      exact decimal_digits hdigits (List.cons_ne_nil c s)
  rw [isDecimal, hscan, Bool.and_eq_true, List.all_eq_true]
  refine ⟨?_, rfl⟩
  intro c hc
  simp [isDecimalChar, hdigits c hc]

/-! ## Tuples -/

/-- The numbers of a metric, in the order of the statement. -/
def MetricInfo.numbers (m : MetricInfo) : List Double :=
  [m.warn, m.warnLow, m.crit, m.critLow, m.min, m.max, m.value]

theorem readTuple_integer (n k : ℕ) (fs : List Bytes) :
    readTuple k (lparen :: (integer n ++ (fs.flatMap (comma :: ·) ++ [rparen]))) =
      (readValues k (fs.flatMap (comma :: ·) ++ [rparen])).map (.number (integer n) :: ·) := by
  have hdecimal := isDecimal_integer n
  have hreads := reads_bare (plain_of_decimal hdecimal)
  have hrest : ∃ c r, fs.flatMap (comma :: ·) ++ [rparen] = c :: r ∧ (c = comma ∨ c = rparen) := by
    cases fs with
    | nil => exact ⟨rparen, [], rfl, .inr rfl⟩
    | cons g gs => exact ⟨comma, g ++ gs.flatMap (comma :: ·) ++ [rparen], by simp, .inl rfl⟩
  obtain ⟨c, r, hcr, hc⟩ := hrest
  rw [readTuple, if_pos List.head?_cons, List.tail_cons, hcr, hreads c r hc, bare_number hdecimal]
  rfl

/-- A literal that is left open goes on to the quote of the next one. -/
theorem readValues_open (n : ℕ) (p w wl md : Bytes) (fs : List Bytes) (hw : Plain w) (hwl : Plain wl)
    (hmode : ∃ d ds, md = d :: ds ∧ isToken d = true ∧ d ≠ quote) :
    readValues (n + 2) ((quoted (escaped p ++ [backslash]) :: w :: wl :: quoted md :: fs).flatMap
      (comma :: ·) ++ [rparen]) = none := by
  obtain ⟨d, ds, rfl, hd, hquote⟩ := hmode
  have hplain : ∀ c ∈ comma :: w ++ comma :: wl ++ [comma], isSpecial c = false := by
    intro c hc
    simp only [List.cons_append, List.append_assoc, List.mem_cons, List.mem_append, List.not_mem_nil,
      or_false] at hc
    rcases hc with rfl | hc | rfl | hc | rfl
    · rfl
    · exact (hw c hc).2
    · rfl
    · exact (hwl c hc).2
    · rfl
  have htext : (quoted (escaped p ++ [backslash]) :: w :: wl :: quoted (d :: ds) :: fs).flatMap
      (comma :: ·) ++ [rparen] = comma :: quote :: (escaped p ++ backslash :: quote ::
        (escaped (comma :: w ++ comma :: wl ++ [comma]) ++ quote :: d ::
          (ds ++ quote :: (fs.flatMap (comma :: ·) ++ [rparen])))) := by
    rw [escaped_plain hplain]
    simp [quoted]
  have hclose : ∀ r, readQuoted (quote :: d :: r) = some ([], d :: r) := by
    intro r
    rw [readQuoted, if_neg (by decide), if_pos rfl, if_neg hquote]
  have hescape : ∀ r, readQuoted (backslash :: quote :: r) =
      (readQuoted r).map fun x => (quote :: x.1, x.2) := by
    intro r
    rw [readQuoted, if_pos rfl]
  have hcomma : ∀ r, (d :: r).head? ≠ some comma := by
    intro r hr
    cases hr
    cases hd
  rw [htext, readValues, if_pos List.head?_cons, List.tail_cons, readValue, if_pos List.head?_cons,
    List.tail_cons, readQuoted_escaped p (by simp), hescape, readQuoted_escaped _ (by simp), hclose]
  simp only [Option.map_some, Option.bind_some]
  rw [readValues, if_neg (hcomma _)]
  rfl

namespace MetricInfo

variable {m : MetricInfo}

/-- A tuple with a closed literal is valid when no number is infinite and the value is one. -/
theorem valid_iff_of_closed (hprint : ∀ q, isDecimal (print q) = true) {p : Bytes}
    (h : escape m.unitName unitNameSize = some (escaped p)) :
    (∃ t, m.tuple print = some t ∧ ValidTuple m t) ↔
      m.value ≠ .nan ∧ ∀ v ∈ m.numbers, ¬ ∃ negative, v = .infinity negative := by
  have hmode : ∀ b, Reads (quoted (mode b)) (some (.string (mode b))) := by
    intro b
    have hreads := reads_quoted (mode b)
    rwa [plain_mode] at hreads
  obtain ⟨warn, hwarn, -, hwarnNumeric, hwarnSome⟩ := reads_nullable hprint m.warn
  obtain ⟨warnLow, hwarnLow, -, hwarnLowNumeric, hwarnLowSome⟩ := reads_nullable hprint m.warnLow
  obtain ⟨crit, hcrit, -, hcritNumeric, hcritSome⟩ := reads_nullable hprint m.crit
  obtain ⟨critLow, hcritLow, -, hcritLowNumeric, hcritLowSome⟩ := reads_nullable hprint m.critLow
  obtain ⟨min, hmin, -, hminNumeric, hminSome⟩ := reads_nullable hprint m.min
  obtain ⟨max, hmax, -, hmaxNumeric, hmaxSome⟩ := reads_nullable hprint m.max
  obtain ⟨hplain, hnumber, hnone⟩ := bare_format hprint m.value
  have hvalue := reads_bare hplain
  have hread : readTuple 10 (lparen :: (integer m.metricId ++
      ((m.fields print (escaped p)).flatMap (comma :: ·) ++ [rparen]))) =
      warn.bind fun warn => warnLow.bind fun warnLow => crit.bind fun crit => critLow.bind fun critLow =>
        min.bind fun min => max.bind fun max => (bare (format print m.value)).map fun value =>
          [.number (integer m.metricId), .string p, warn, warnLow, .string (mode m.warnMode), crit, critLow,
            .string (mode m.critMode), min, max, value] := by
    rw [readTuple_integer, fields, readValues_cons (reads_quoted p), readValues_cons hwarn,
      readValues_cons hwarnLow, readValues_cons (hmode _), readValues_cons hcrit, readValues_cons hcritLow,
      readValues_cons (hmode _), readValues_cons hmin, readValues_cons hmax, readValues_cons hvalue]
    cases warn <;> cases warnLow <;> cases crit <;> cases critLow <;> cases min <;> cases max <;>
      cases bare (format print m.value) <;> rfl
  constructor
  · rintro ⟨t, ht, hvalid⟩
    rw [tuple, h] at ht
    cases ht
    obtain ⟨_, _, _, _, _, _, _, _, _, _, _, hlist, -⟩ := hvalid
    rw [hread] at hlist
    simp only [Option.bind_eq_some_iff, Option.map_eq_some_iff] at hlist
    obtain ⟨w, hw, wl, hwl, c, hc, cl, hcl, mn, hmn, mx, hmx, v, hv, -⟩ := hlist
    have hq : ∃ q, m.value = .number q := by
      by_contra hq
      rw [hnone hq] at hv
      cases hv
    obtain ⟨q, hq⟩ := hq
    refine ⟨by simp [hq], ?_⟩
    intro x hx
    simp only [numbers, List.mem_cons, List.not_mem_nil, or_false] at hx
    rcases hx with rfl | rfl | rfl | rfl | rfl | rfl | rfl
    · exact hwarnSome.mp (by rw [hw]; rfl)
    · exact hwarnLowSome.mp (by rw [hwl]; rfl)
    · exact hcritSome.mp (by rw [hc]; rfl)
    · exact hcritLowSome.mp (by rw [hcl]; rfl)
    · exact hminSome.mp (by rw [hmn]; rfl)
    · exact hmaxSome.mp (by rw [hmx]; rfl)
    · simp [hq]
  · rintro ⟨hnan, hfinite⟩
    have hsome : ∀ {r : Option SqlValue} {x : Double},
        (r.isSome = true ↔ ¬ ∃ negative, x = .infinity negative) → x ∈ m.numbers → ∃ y, r = some y :=
      fun hr hx => Option.isSome_iff_exists.mp (hr.mpr (hfinite _ hx))
    obtain ⟨w, rfl⟩ := hsome hwarnSome (by simp [numbers])
    obtain ⟨wl, rfl⟩ := hsome hwarnLowSome (by simp [numbers])
    obtain ⟨c, rfl⟩ := hsome hcritSome (by simp [numbers])
    obtain ⟨cl, rfl⟩ := hsome hcritLowSome (by simp [numbers])
    obtain ⟨mn, rfl⟩ := hsome hminSome (by simp [numbers])
    obtain ⟨mx, rfl⟩ := hsome hmaxSome (by simp [numbers])
    have hq : ∃ q, m.value = .number q := by
      cases hv : m.value with
      | nan => exact absurd hv hnan
      | infinity negative => exact absurd ⟨negative, hv⟩ (hfinite _ (by simp [numbers]))
      | number q => exact ⟨q, rfl⟩
    obtain ⟨v, hv⟩ := hnumber hq
    rw [hv] at hread
    refine ⟨_, by rw [tuple, h]; rfl, _, p, w, wl, _, c, cl, _, mn, mx, .number v, hread, ?_, _, h,
      unescape_self p⟩
    intro x hx
    simp only [List.mem_cons, List.not_mem_nil, or_false] at hx
    rcases hx with rfl | rfl | rfl | rfl | rfl | rfl | rfl
    · exact hwarnNumeric _ rfl
    · exact hwarnLowNumeric _ rfl
    · exact hcritNumeric _ rfl
    · exact hcritLowNumeric _ rfl
    · exact hminNumeric _ rfl
    · exact hmaxNumeric _ rfl
    · trivial

/-- One with a literal that is left open is not. -/
theorem not_valid_of_open (hprint : ∀ q, isDecimal (print q) = true) {p : Bytes}
    (h : escape m.unitName unitNameSize = some (escaped p ++ [backslash])) :
    ¬ ∃ t, m.tuple print = some t ∧ ValidTuple m t := by
  intro ⟨t, ht, hvalid⟩
  obtain ⟨_, _, hwarn, -⟩ := reads_nullable hprint m.warn
  obtain ⟨_, _, hwarnLow, -⟩ := reads_nullable hprint m.warnLow
  have hmode : ∃ d ds, mode m.warnMode = d :: ds ∧ isToken d = true ∧ d ≠ quote := by
    cases m.warnMode
    · exact ⟨0x30, [], rfl, rfl, by decide⟩
    · exact ⟨0x31, [], rfl, rfl, by decide⟩
  have hopen := readValues_open 8 p _ _ (mode m.warnMode)
    [nullable print m.crit, nullable print m.critLow, quoted (mode m.critMode), nullable print m.min,
      nullable print m.max, format print m.value] hwarn hwarnLow hmode
  rw [tuple, h] at ht
  cases ht
  obtain ⟨_, _, _, _, _, _, _, _, _, _, _, hlist, -⟩ := hvalid
  rw [readTuple_integer, fields, hopen] at hlist
  cases hlist

end MetricInfo

/-- **A tuple is valid exactly when no number of the metric is infinite and the size of the unit does
not leave an escape open**, for every metric that is parsed and for every unit. -/
theorem valid_tuple_iff (print : ℚ → Bytes) (hprint : ∀ q, isDecimal (print q) = true) {str : Bytes}
    {pds : List Perfdata} (h : parsePerfdata str = some pds) {pd : Perfdata} (hpd : pd ∈ pds)
    (m : MetricInfo) (unit : Bytes) :
    (∃ t, (m.update { pd with unit := unit }).tuple print = some t ∧
        ValidTuple (m.update { pd with unit := unit }) t) ↔
      ¬ pd.Infinite ∧ ¬ LeavesOpen unit unitNameSize ∧ ¬ Lost unit unitNameSize := by
  have hvalue := value_ne_nan h pd hpd
  have hname : (m.update { pd with unit := unit }).unitName = unit := rfl
  rcases escape_cases unit (s := unitNameSize) (by decide) with
    ⟨hnone, hlost⟩ | ⟨p, hescape, -, hlost, hopen⟩ | ⟨p, hescape, hopen⟩
  · refine iff_of_false ?_ (fun hall => hall.2.2 hlost)
    intro ⟨t, ht, _⟩
    rw [MetricInfo.tuple, hname, hnone] at ht
    cases ht
  · rw [MetricInfo.valid_iff_of_closed hprint (p := p) hescape]
    constructor
    · intro ⟨_, hfinite⟩
      refine ⟨?_, hopen, hlost⟩
      intro ⟨v, hv, negative, hinfinite⟩
      exact hfinite v hv ⟨negative, hinfinite⟩
    · intro ⟨hfinite, _⟩
      exact ⟨hvalue, fun v hv ⟨negative, hinfinite⟩ => hfinite ⟨v, hv, negative, hinfinite⟩⟩
  · exact iff_of_false (MetricInfo.not_valid_of_open hprint hescape) fun hall => hall.2.1 hopen

/-- A metric of the cache that has no values yet. -/
def newMetric : MetricInfo :=
  ⟨1, .gauge, .nan, [], .nan, .nan, false, .nan, .nan, false, .nan, .nan⟩

/-- `m=1`, and the unit `s`. -/
theorem valid_tuple_iff_one : ∃ pd, parsePerfdata [0x6D, 0x3D, 0x31] = some [pd] ∧
    ((∃ t, (newMetric.update { pd with unit := [0x73] }).tuple (fun _ => [0x31, 0x2E, 0x30]) = some t ∧
        ValidTuple (newMetric.update { pd with unit := [0x73] }) t) ↔
      ¬ pd.Infinite ∧ ¬ LeavesOpen [0x73] unitNameSize ∧ ¬ Lost [0x73] unitNameSize) := by
  have htext : MetricText [0x6D] [0x31] [] .gauge [0x6D] ⟨.empty, .empty, none, none⟩ :=
    .of_fields ⟨0, rfl, by simp [Fields.texts, RangeField.text, numberText]⟩ (by decide)
  obtain ⟨pd, hparse, -⟩ := htext.parse_aligned fun hjoined => hjoined.2
  exact ⟨pd, hparse, valid_tuple_iff _ (fun _ => rfl) hparse (List.mem_singleton_self pd) newMetric _⟩

/-- `m=1;10:`: the high value of the warning is infinite. -/
theorem not_valid_tuple : ¬ ∀ print : ℚ → Bytes, (∀ q, isDecimal (print q) = true) →
    ∀ str pds, parsePerfdata str = some pds → ∀ pd ∈ pds, ∀ (m : MetricInfo) (unit : Bytes),
      ∃ t, (m.update { pd with unit := unit }).tuple print = some t ∧
        ValidTuple (m.update { pd with unit := unit }) t := by
  intro h
  have hprint : ∀ q : ℚ, isDecimal ((fun _ => [0x31, 0x2E, 0x30]) q) = true := fun _ => rfl
  have htext : MetricText [0x6D] [0x31] [[0x31, 0x30, 0x3A]] .gauge [0x6D]
      ⟨.range false (.atLeast ⟨[0x31, 0x30], rfl, Double.ofRat_ne_nan _⟩), .empty, none, none⟩ :=
    .of_fields ⟨1, rfl, by simp [Fields.texts, RangeField.text, numberText]⟩ (by decide)
  refine Exists.elim (htext.parse_aligned fun hjoined => hjoined.2) ?_
  intro pd hpd
  have hinfinite : pd.warning = .infinity false := congrArg Range.high hpd.2.warning
  have hvalid := h _ hprint _ _ hpd.1 pd (List.mem_singleton_self pd) newMetric []
  rw [MetricInfo.valid_iff_of_closed hprint (p := []) rfl] at hvalid
  exact hvalid.2 pd.warning (by simp [MetricInfo.numbers, MetricInfo.update]) ⟨false, hinfinite⟩

end CentreonBroker.Storage
