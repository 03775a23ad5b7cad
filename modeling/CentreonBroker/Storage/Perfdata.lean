import CentreonBroker.Lib.Strtod
import CentreonBroker.Misc.Escape

/-!
# Performance data

The text of the plugins is parsed item by item: a label, the value, its unit, two ranges and two
bounds. The label is found with pointers that go forward and backward, and no position in front of the
string can be read. What is behind the equal sign is only read forward.
-/

namespace CentreonBroker.Storage

open Strtod Misc Misc.Escape

/-- `perfdata::data_type`. -/
inductive DataType where
  | gauge
  | counter
  | derive
  | absolute
  | automatic
  deriving DecidableEq

/-- `perfdata`, with the values of its constructor. -/
structure Perfdata where
  critical : Double := .nan
  criticalLow : Double := .nan
  criticalMode : Bool := false
  max : Double := .nan
  min : Double := .nan
  name : Bytes := []
  unit : Bytes := []
  value : Double := .nan
  valueType : DataType := .gauge
  warning : Double := .nan
  warningLow : Double := .nan
  warningMode : Bool := false

namespace Perfdata

/-- The sizes of `metrics.metric_name` and of `metrics.unit_name`. -/
def metricNameSize : ℕ := 255

def unitNameSize : ℕ := 32

def equal : UInt8 := 0x3D

def semicolon : UInt8 := 0x3B

def colon : UInt8 := 0x3A

def comma : UInt8 := 0x2C

def point : UInt8 := 0x2E

/-- A blank, a line feed, a carriage return or a tab. -/
def isBlank (c : UInt8) : Bool := c == 0x20 || c == 0x0A || c == 0x0D || c == 0x09

/-- What ends a unit. -/
def isSeparator (c : UInt8) : Bool := isBlank c || c == semicolon

/-! ## Numbers -/

/-- The number at the beginning. Where there is a comma, a point takes its place. -/
def number (str : Bytes) : Double × Bytes :=
  if comma ∈ str then
    let before := str.takeWhile (· != comma)
    let behind := (str.dropWhile (· != comma)).takeWhile (!isSeparator ·)
    let nb := before ++ point :: behind.tail
    let (retval, tmp) := strtod nb
    (if tmp.length = nb.length then .nan else retval, str.drop (nb.length - tmp.length))
  else
    let (retval, tmp) := strtod str
    (if tmp.length = str.length then .nan else retval, tmp)

/-- `extract_double`. -/
def extractDouble (str : Bytes) (skip : Bool) : Double × Bytes :=
  if str.head?.any isSpace then (.nan, str)
  else
    let (retval, str) := number str
    (retval, if skip && str.head? == some semicolon then str.tail else str)

/-- The values of a threshold. -/
structure Range where
  low : Double
  high : Double
  inclusive : Bool

/-- `extract_range`. -/
def extractRange (str : Bytes) : Range × Bytes :=
  let inclusive := str.head? == some 0x40
  let str := if inclusive then str.tail else str
  let (lowValue, str) :=
    if str.head? = some 0x7E then (.infinity true, str.tail) else extractDouble str true
  if str.head? ≠ some colon then
    (⟨if lowValue = .nan then lowValue else .number 0, lowValue, inclusive⟩, str)
  else
    let ptr := str.tail
    let (highValue, str) := extractDouble ptr true
    -- nothing was read, or the semicolon only
    let highValue :=
      if highValue = .nan && ptr.length ≤ str.length + 1 then .infinity false else highValue
    (⟨lowValue, highValue, inclusive⟩, str)

/-! ## Labels -/

/-- What is read at a position. The string ends with a NUL. -/
def charAt (str : Bytes) (i : ℕ) : UInt8 := str[i]?.getD 0

/-- How far the label goes: to an equal sign or a space that is not between quotes. -/
def labelLength (inQuote : Bool) : Bytes → ℕ
  | [] => 0
  | c :: cs =>
    if (inQuote || (c != equal && !isSpace c)) || 128 ≤ c then
      labelLength (if c = quote then !inQuote else inQuote) cs + 1
    else 0

/-- The blanks at the end of the label go, but for one at `s`. The label ends in front of `stop`;
`strchr` finds the NUL, too. -/
def trimEnd (str : Bytes) (s : ℕ) : ℕ → Option ℕ
  | 0 => none
  | stop + 1 =>
    if stop ≠ s ∧ (isBlank (charAt str stop) || charAt str stop == 0) then trimEnd str s stop
    else some (stop + 1)

/-- The type that a label begins with. -/
def typePrefix (str : Bytes) (s : ℕ) : Option DataType :=
  if charAt str (s + 1) = 0x5B then
    if charAt str s = 0x61 then some .absolute
    else if charAt str s = 0x63 then some .counter
    else if charAt str s = 0x64 then some .derive
    else if charAt str s = 0x67 then some .gauge
    else none
  else none

/-- A label that ends with a bracket, which goes, may begin with its type. -/
def unwrap (str : Bytes) (s stop : ℕ) : DataType × ℕ × ℕ :=
  if charAt str (stop - 1) = 0x5D then
    match typePrefix str s with
    | some valueType => (valueType, s + 2, stop - 1)
    | none => (.gauge, s, stop - 1)
  else (.gauge, s, stop)

/-- The label between two positions: its type, and its name if it is not empty. There is none where
the source reads in front of the string, or behind its NUL: an error shows ten characters. -/
def label (str : Bytes) (tmp stop : ℕ) : Option (DataType × Option Bytes) :=
  let s := if charAt str tmp = quote then tmp + 1 else tmp
  if stop = 0 then none
  else
    let stop := if charAt str (stop - 1) = quote then stop - 1 else stop
    let s := s + ((str.drop s).takeWhile isBlank).length
    (trimEnd str s stop).bind fun stop =>
      let (valueType, s, stop) := unwrap str s stop
      if s < stop then
        let name := (str.take stop).drop s
        (adjust_size_utf8 name metricNameSize).map fun n => (valueType, some (name.take n))
      else if s + 10 ≤ str.length + 1 then some (valueType, none)
      else none

/-! ## Items -/

/-- The lambda `skip`. -/
def skip (str : Bytes) : Bytes := (str.dropWhile (!isSpace ·)).dropWhile isSpace

/-- A semicolon goes. -/
def afterSemicolon (str : Bytes) : Bytes := if str.head? = some semicolon then str.tail else str

/-- The warning and critical ranges, the minimum and the maximum. -/
def thresholds (str : Bytes) : (Range × Range × Double × Double) × Bytes :=
  let (warning, str) := extractRange str
  let (critical, str) := extractRange str
  let (min, str) := extractDouble str true
  let (max, str) := extractDouble str true
  ((warning, critical, min, max), str)

def withValues (p : Perfdata) (value : Double) (unit : Bytes)
    (fields : Range × Range × Double × Double) : Perfdata :=
  { p with
    value := value
    unit := unit
    warning := fields.1.high
    warningLow := fields.1.low
    warningMode := fields.1.inclusive
    critical := fields.2.1.high
    criticalLow := fields.2.1.low
    criticalMode := fields.2.1.inclusive
    min := fields.2.2.1
    max := fields.2.2.2 }

/-- What is behind the equal sign, and what is behind the item. -/
def metric (p : Perfdata) (str : Bytes) : Option (Option Perfdata × Bytes) :=
  let (value, str) := extractDouble str false
  if value = .nan then some (none, skip str)
  else
    let unit := str.takeWhile (!isSeparator ·)
    let (fields, str) := thresholds (afterSemicolon (str.dropWhile (!isSeparator ·)))
    (adjust_size_utf8 unit unitNameSize).map fun n =>
      (some (p.withValues value (unit.take n) fields), str.dropWhile isSpace)

/-- One turn of the loop: the metric, if there is one, and what is behind it. -/
def item (str : Bytes) (tmp : ℕ) : Option (Option Perfdata × Bytes) :=
  let stop := tmp + labelLength false (str.drop tmp)
  (label str tmp stop).bind fun (valueType, name) =>
    let rest := str.drop stop
    if rest.head? = some equal then
      match name with
      | some name => metric { name := name, valueType := valueType } rest.tail
      | none => some (none, skip rest.tail)
    else some (none, skip rest)

/-! ## What is left is the end of the string -/

theorem number_suffix (str : Bytes) : (number str).2 <:+ str := by
  unfold number
  split
  · exact List.drop_suffix _ _
  · exact strtod_suffix str

theorem extractDouble_suffix (str : Bytes) (skip : Bool) : (extractDouble str skip).2 <:+ str := by
  unfold extractDouble
  split
  · exact List.suffix_refl str
  · dsimp only
    split
    · exact (List.tail_suffix _).trans (number_suffix str)
    · exact number_suffix str

theorem extractRange_suffix (str : Bytes) : (extractRange str).2 <:+ str := by
  unfold extractRange
  dsimp only
  generalize hs : (if (str.head? == some 0x40) = true then str.tail else str) = s
  have hsuffix : s <:+ str := by
    rw [← hs]
    split
    · exact List.tail_suffix str
    · exact List.suffix_refl str
  generalize hl : (if s.head? = some 0x7E then (Double.infinity true, s.tail) else
    extractDouble s true) = l
  have hlow : l.2 <:+ str := by
    rw [← hl]
    split
    · exact (List.tail_suffix s).trans hsuffix
    · exact (extractDouble_suffix s true).trans hsuffix
  split
  · exact hlow
  · exact (extractDouble_suffix _ true).trans ((List.tail_suffix _).trans hlow)

theorem skip_suffix (str : Bytes) : skip str <:+ str :=
  (List.dropWhile_suffix _).trans (List.dropWhile_suffix _)

theorem thresholds_suffix (str : Bytes) : (thresholds str).2 <:+ str :=
  (extractDouble_suffix _ _).trans ((extractDouble_suffix _ _).trans
    ((extractRange_suffix _).trans (extractRange_suffix str)))

theorem afterSemicolon_suffix (str : Bytes) : afterSemicolon str <:+ str := by
  unfold afterSemicolon
  split
  · exact List.tail_suffix str
  · exact List.suffix_refl str

theorem metric_suffix {p : Perfdata} {str : Bytes} {x : Option Perfdata × Bytes}
    (h : metric p str = some x) : x.2 <:+ str := by
  unfold metric at h
  dsimp only at h
  have hvalue := extractDouble_suffix str false
  split at h
  · cases h
    exact (skip_suffix _).trans hvalue
  · obtain ⟨n, -, rfl⟩ := Option.map_eq_some_iff.mp h
    exact (List.dropWhile_suffix _).trans ((thresholds_suffix _).trans ((afterSemicolon_suffix _).trans
      ((List.dropWhile_suffix _).trans hvalue)))

/-- A label without characters ends at an equal sign or at a space. -/
theorem labelLength_eq_zero {c : UInt8} {cs : Bytes} (h : labelLength false (c :: cs) = 0) :
    c = equal ∨ isSpace c = true := by
  rw [labelLength] at h
  split at h
  · cases h
  · rename_i hc
    by_cases heq : c = equal
    · exact .inl heq
    · refine .inr ?_
      simp only [Bool.or_eq_true, Bool.and_eq_true, bne_iff_ne, Bool.not_eq_true', Bool.false_eq_true,
        false_or, not_or, not_and, Bool.not_eq_false] at hc
      exact hc.1 heq

/-- Each turn of the loop goes on. -/
theorem item_progress {str : Bytes} {tmp : ℕ} {x : Option Perfdata × Bytes} (htmp : tmp < str.length)
    (h : item str tmp = some x) : tmp < str.length - x.2.length := by
  obtain ⟨⟨valueType, name⟩, -, hx⟩ := Option.bind_eq_some_iff.mp h
  dsimp only at hx
  generalize hstop : tmp + labelLength false (str.drop tmp) = stop at hx
  have hrest : (str.drop stop).length = str.length - stop := List.length_drop
  split at hx
  · -- behind the equal sign
    rename_i hequal
    have hle : x.2.length ≤ (str.drop stop).tail.length := by
      cases name with
      | some name => exact (metric_suffix hx).length_le
      | none =>
        cases hx
        exact (skip_suffix _).length_le
    rw [List.length_tail] at hle
    have hne : str.drop stop ≠ [] := by
      intro hnil
      rw [hnil] at hequal
      cases hequal
    have hpos := List.length_pos_of_ne_nil hne
    omega
  · rename_i hequal
    cases hx
    have hle := (skip_suffix (str.drop stop)).length_le
    by_cases hmove : tmp < stop
    · dsimp only
      omega
    · -- no label: the space at its place is skipped
      have hsame : stop = tmp := by omega
      have hzero : labelLength false (str.drop tmp) = 0 := by omega
      rw [hsame] at hequal hle hrest ⊢
      cases hdrop : str.drop tmp with
      | nil =>
        rw [hdrop] at hrest
        simp only [List.length_nil] at hrest
        omega
      | cons c cs =>
        rw [hdrop] at hzero hequal hrest
        rcases labelLength_eq_zero hzero with heq | hspace
        · rw [heq] at hequal
          exact absurd rfl hequal
        · have hskip : skip (c :: cs) = cs.dropWhile isSpace := by
            rw [skip, List.dropWhile_cons_of_neg (by simp [hspace]), List.dropWhile_cons_of_pos hspace]
          have hlen := (List.dropWhile_suffix isSpace (l := cs)).length_le
          rw [List.length_cons] at hrest
          dsimp only
          rw [hskip]
          omega

end Perfdata

open Perfdata

/-- The loop of `parse_perfdata`, at a position. -/
def parseItems (str : Bytes) (tmp : ℕ) : Option (List Perfdata) :=
  if _htmp : tmp < str.length then
    match _hitem : item str tmp with
    | none => none
    | some x => (parseItems str (str.length - x.2.length)).map (x.1.toList ++ ·)
  else some []
termination_by str.length - tmp
decreasing_by
  have := item_progress _htmp _hitem
  omega

/-- `parser::parse_perfdata`, on a string that ends at its first NUL; there is no list where it reads
outside of the string. -/
def parsePerfdata (str : Bytes) : Option (List Perfdata) :=
  let str := str.takeWhile (· != 0)
  parseItems str (str.takeWhile isBlank).length

namespace Perfdata

variable {str : Bytes} {tmp : ℕ}

theorem parseItems_item {x : Option Perfdata × Bytes} (htmp : tmp < str.length)
    (h : item str tmp = some x) :
    parseItems str tmp = (parseItems str (str.length - x.2.length)).map (x.1.toList ++ ·) := by
  rw [parseItems, dif_pos htmp]
  split
  · rename_i hnone
    rw [hnone] at h
    cases h
  · rename_i y hy
    obtain rfl : y = x := Option.some.inj (hy.symm.trans h)
    rfl

theorem parseItems_none (htmp : tmp < str.length) (h : item str tmp = none) :
    parseItems str tmp = none := by
  rw [parseItems, dif_pos htmp]
  split
  · rfl
  · rename_i y hy
    rw [h] at hy
    cases hy

theorem parseItems_end (htmp : str.length ≤ tmp) :
    parseItems str tmp = some [] := by
  rw [parseItems, dif_neg (by omega)]

/-! ## What a metric is -/

/-- A value is a number or infinite. -/
theorem metric_value {p : Perfdata} {rest : Bytes} {pd : Perfdata}
    (h : metric p str = some (some pd, rest)) : pd.value ≠ .nan := by
  unfold metric at h
  dsimp only at h
  split at h
  · cases h
  · rename_i hvalue
    obtain ⟨n, -, hpd⟩ := Option.map_eq_some_iff.mp h
    cases hpd
    exact hvalue

theorem item_value {rest : Bytes} {pd : Perfdata}
    (h : item str tmp = some (some pd, rest)) : pd.value ≠ .nan := by
  obtain ⟨⟨valueType, name⟩, -, hx⟩ := Option.bind_eq_some_iff.mp h
  dsimp only at hx
  split at hx
  · cases name with
    | some name => exact metric_value hx
    | none => cases hx
  · cases hx

/-- Of what a turn gives there is all that the loop gives. -/
theorem forall_parseItems {P : Perfdata → Prop}
    (hitem : ∀ tmp pd rest, item str tmp = some (some pd, rest) → P pd) (tmp : ℕ) {pds : List Perfdata}
    (h : parseItems str tmp = some pds) : ∀ pd ∈ pds, P pd := by
  induction tmp using parseItems.induct str generalizing pds with
  | case1 tmp htmp hnone =>
    rw [parseItems_none htmp hnone] at h
    cases h
  | case2 tmp htmp x hx ih =>
    rw [parseItems_item htmp hx] at h
    obtain ⟨rest, hrest, rfl⟩ := Option.map_eq_some_iff.mp h
    intro pd hpd
    rcases List.mem_append.mp hpd with hpd | hpd
    · obtain ⟨some_pd, y⟩ := x
      rw [Option.mem_toList] at hpd
      cases hpd
      exact hitem tmp pd y hx
    · exact ih hrest pd hpd
  | case3 tmp htmp =>
    rw [parseItems_end (by omega)] at h
    cases h
    simp

/-- **No value that is parsed is a NaN.** -/
theorem value_ne_nan {pds : List Perfdata} (h : parsePerfdata str = some pds) :
    ∀ pd ∈ pds, pd.value ≠ .nan :=
  forall_parseItems (fun _ _ _ => item_value) _ h

end Perfdata

end CentreonBroker.Storage
