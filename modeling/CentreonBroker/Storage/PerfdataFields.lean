import CentreonBroker.Storage.PerfdataText

/-!
# The fields of a metric

A metric has up to four fields behind its value: two ranges and two numbers, of which each may be
empty. Each field is read from its own text but in one case. Where the warning range is empty or a
single number, the colon at the beginning of a critical range is taken for its own.
-/

namespace CentreonBroker.Storage.Perfdata

open Strtod Misc Misc.Escape

/-- What a range can look like: `x`, `x:`, `x:y`, `~:y` and `:y`. -/
inductive RangeForm where
  | upTo (x : NumberText)
  | atLeast (x : NumberText)
  | between (x y : NumberText)
  | atMost (y : NumberText)
  | below (y : NumberText)

namespace RangeForm

def text : RangeForm → Bytes
  | upTo x => x.text
  | atLeast x => x.text ++ [colon]
  | between x y => x.text ++ colon :: y.text
  | atMost y => 0x7E :: colon :: y.text
  | below y => colon :: y.text

def low : RangeForm → Double
  | upTo _ => .number 0
  | atLeast x => valueOf x.text
  | between x _ => valueOf x.text
  | atMost _ => .infinity true
  | below _ => .nan

def high : RangeForm → Double
  | upTo x => valueOf x.text
  | atLeast _ => .infinity false
  | between _ y => valueOf y.text
  | atMost y => valueOf y.text
  | below y => valueOf y.text

end RangeForm

/-- A range field: nothing, or a range, inclusive where an `@` is in front of it. -/
inductive RangeField where
  | empty
  | range (inclusive : Bool) (form : RangeForm)

namespace RangeField

def text : RangeField → Bytes
  | empty => []
  | range inclusive form => if inclusive then 0x40 :: form.text else form.text

/-- What the field says. -/
def meaning : RangeField → Range
  | empty => ⟨.nan, .nan, false⟩
  | range inclusive form => ⟨form.low, form.high, inclusive⟩

/-- It has no colon. -/
def Single : RangeField → Prop
  | empty => True
  | range _ (.upTo _) => True
  | _ => False

/-- It begins with a colon. -/
def Colon : RangeField → Prop
  | range false (.below _) => True
  | _ => False

end RangeField

/-- A field that is a number or nothing. -/
def numberText : Option NumberText → Bytes
  | none => []
  | some x => x.text

def numberValue : Option NumberText → Double
  | none => .nan
  | some x => valueOf x.text

/-- The four fields. -/
structure Fields where
  warning : RangeField
  critical : RangeField
  min : Option NumberText
  max : Option NumberText

namespace Fields

def texts (f : Fields) : List Bytes :=
  [f.warning.text, f.critical.text, numberText f.min, numberText f.max]

/-- Each attribute of the metric is what its own field says. -/
structure Aligned (f : Fields) (pd : Perfdata) : Prop where
  warning : (⟨pd.warningLow, pd.warning, pd.warningMode⟩ : Range) = f.warning.meaning
  critical : (⟨pd.criticalLow, pd.critical, pd.criticalMode⟩ : Range) = f.critical.meaning
  min : pd.min = numberValue f.min
  max : pd.max = numberValue f.max

/-- A critical range that begins with a colon, behind a warning range that has none. -/
def Joined (f : Fields) : Prop := f.warning.Single ∧ f.critical.Colon

end Fields

/-- The fields that are written: the first ones, and the other ones are empty. -/
def Written (fs texts : List Bytes) : Prop := ∃ k, fs = texts.take k ∧ ∀ f ∈ texts.drop k, f = []

variable {fs texts : List Bytes} {f t : Bytes}

theorem Written.head (h : Written fs (f :: texts)) : fs.headD [] = f := by
  obtain ⟨k, rfl, hempty⟩ := h
  cases k with
  | zero => exact (hempty f List.mem_cons_self).symm
  | succ k => rfl

theorem Written.tail (h : Written fs (f :: texts)) : Written fs.tail texts := by
  obtain ⟨k, rfl, hempty⟩ := h
  cases k with
  | zero => exact ⟨0, rfl, fun g hg => hempty g (List.mem_cons_of_mem f hg)⟩
  | succ k => exact ⟨k, rfl, hempty⟩

theorem Written.nil (h : Written fs []) : fs = [] := by
  obtain ⟨k, rfl, -⟩ := h
  exact List.take_nil

theorem Written.next (h : Written fs (f :: texts)) : next fs t = f ++ behind fs.tail t := by
  rw [Perfdata.next, h.head]

/-! ## One field -/

theorem boundary_colon (r : Bytes) : Boundary (colon :: r) := boundary_cons rfl (by decide)

theorem afterSemicolon_colon (r : Bytes) : afterSemicolon (colon :: r) = colon :: r := rfl

/-- A range without its mode. -/
theorem highValue_form (inclusive : Bool) (form : RangeForm) (ht : Ends t)
    (hnext : (RangeField.range inclusive form).Single → (fs.headD []).head? ≠ some colon) :
    highValue inclusive (lowValue (form.text ++ behind fs t)) =
      (⟨form.low, form.high, inclusive⟩, next fs t) := by
  cases form with
  | upTo x =>
    show highValue inclusive (lowValue (x.text ++ behind fs t)) = _
    rw [lowValue_number x (boundary_behind ht fs), afterSemicolon_behind ht, highValue_none, if_neg x.ne_nan]
    · rfl
    · rw [ne_eq, head_next ht]
      exact hnext trivial
  | atLeast x =>
    show highValue inclusive (lowValue (x.text ++ [colon] ++ behind fs t)) = _
    rw [List.append_assoc, List.singleton_append, lowValue_number x (boundary_colon _),
      afterSemicolon_colon, highValue_infinity ht]
    rfl
  | between x y =>
    show highValue inclusive (lowValue (x.text ++ colon :: y.text ++ behind fs t)) = _
    rw [List.append_assoc, List.cons_append, lowValue_number x (boundary_colon _),
      afterSemicolon_colon, highValue_number y ht]
    rfl
  | atMost y => exact highValue_number y ht
  | below y =>
    show highValue inclusive (lowValue (colon :: (y.text ++ behind fs t))) = _
    rw [lowValue_boundary (boundary_colon _) (by simp [colon]), afterSemicolon_colon, highValue_number y ht]
    rfl

/-- No range begins with an `@`. -/
theorem RangeForm.head_ne (form : RangeForm) (r : Bytes) : (form.text ++ r).head? ≠ some 0x40 := by
  cases form with
  | upTo x => exact x.head_ne rfl (by decide) r
  | atLeast x =>
    show (x.text ++ [colon] ++ r).head? ≠ _
    rw [List.append_assoc]
    exact x.head_ne rfl (by decide) _
  | between x y =>
    show (x.text ++ colon :: y.text ++ r).head? ≠ _
    rw [List.append_assoc]
    exact x.head_ne rfl (by decide) _
  | atMost y =>
    intro h
    cases h
  | below y =>
    intro h
    cases h

/-- **A range is read from its own text**, if no colon follows a single number or nothing. -/
theorem extractRange_field (field : RangeField) (ht : Ends t)
    (hnext : field.Single → (fs.headD []).head? ≠ some colon) :
    extractRange (field.text ++ behind fs t) = (field.meaning, next fs t) := by
  cases field with
  | empty =>
    show extractRange (behind fs t) = _
    rw [extractRange_other (head_behind_ne ht fs rfl), lowValue_boundary (boundary_behind ht fs)
      (head_behind_ne ht fs rfl), afterSemicolon_behind ht, highValue_none]
    · rfl
    · rw [ne_eq, head_next ht]
      exact hnext trivial
  | range inclusive form =>
    cases inclusive with
    | true => exact highValue_form true form ht hnext
    | false =>
      show extractRange (form.text ++ behind fs t) = _
      rw [extractRange_other (form.head_ne _)]
      exact highValue_form false form ht hnext

variable (x : Option NumberText)

/-- A number is read from its own text. -/
theorem extractDouble_field (ht : Ends t) (fs : List Bytes) :
    extractDouble (numberText x ++ behind fs t) true = (numberValue x, next fs t) := by
  cases x with
  | none =>
    show extractDouble ([] ++ behind fs t) true = _
    rw [whole_nil.extractDouble (boundary_behind ht fs), afterSemicolon_behind ht, valueOf_nil]
    rfl
  | some x =>
    show extractDouble (x.text ++ behind fs t) true = _
    rw [x.whole.extractDouble (boundary_behind ht fs), afterSemicolon_behind ht]
    rfl

/-- A number is no range that begins with a colon. -/
theorem numberText_head : (numberText x).head? ≠ some colon := by
  cases x with
  | none => simp [numberText]
  | some x =>
    have h := x.head_ne (c := colon) rfl (by decide) []
    rwa [List.append_nil] at h

theorem colon_iff (field : RangeField) : field.Colon ↔ field.text.head? = some colon := by
  cases field with
  | empty => exact iff_of_false id (by simp [RangeField.text])
  | range inclusive form =>
    cases inclusive with
    | true => exact iff_of_false id (by simp [RangeField.text, colon])
    | false =>
      have hnumber : ∀ (x : NumberText) (r : Bytes), (x.text ++ r).head? ≠ some colon :=
        fun x r => x.head_ne rfl (by decide) r
      cases form with
      | upTo x =>
        have h := hnumber x []
        rw [List.append_nil] at h
        exact iff_of_false id h
      | atLeast x => exact iff_of_false id (hnumber x _)
      | between x y => exact iff_of_false id (hnumber x _)
      | atMost y => exact iff_of_false id (by simp [RangeField.text, RangeForm.text, colon])
      | below y => exact iff_of_true trivial rfl

/-! ## Four fields -/

variable {f : Fields}

/-- The last three fields, behind the warning. -/
theorem thresholds_behind {field : RangeField} {min max : Option NumberText} (ht : Ends t)
    (h : Written fs [field.text, numberText min, numberText max]) :
    extractRange (next fs t) = (field.meaning, next fs.tail t) ∧
      extractDouble (next fs.tail t) true = (numberValue min, next fs.tail.tail t) ∧
      extractDouble (next fs.tail.tail t) true = (numberValue max, t) := by
  refine ⟨?_, ?_, ?_⟩
  · rw [h.next, extractRange_field field ht]
    intro _
    rw [h.tail.head]
    exact numberText_head min
  · rw [h.tail.next, extractDouble_field min ht]
  · rw [h.tail.tail.next, extractDouble_field max ht, h.tail.tail.tail.nil]
    rfl

/-- Each field is read from its own text. -/
theorem thresholds_aligned (ht : Ends t) (h : Written fs f.texts) (hjoined : ¬ f.Joined) :
    thresholds (next fs t) =
      ((f.warning.meaning, f.critical.meaning, numberValue f.min, numberValue f.max), t) := by
  have hwarning : extractRange (next fs t) = (f.warning.meaning, next fs.tail t) := by
    rw [h.next, extractRange_field f.warning ht]
    intro hsingle
    rw [h.tail.head, ne_eq, ← colon_iff]
    exact fun hcolon => hjoined ⟨hsingle, hcolon⟩
  obtain ⟨hcritical, hmin, hmax⟩ := thresholds_behind ht h.tail
  unfold thresholds
  simp only [hwarning, hcritical, hmin, hmax]

/-- The range of a single number, or of none. -/
def singleRange (x : Option NumberText) : RangeField :=
  match x with
  | none => .empty
  | some x => .range false (.upTo x)

theorem text_singleRange : (singleRange x).text = numberText x := by
  cases x <;> rfl

/-- The critical range goes to the warning, and the minimum is taken for the critical range. -/
theorem thresholds_joined (ht : Ends t) (h : Written fs f.texts) (hjoined : f.Joined) :
    ∃ warning, thresholds (next fs t) =
      ((warning, (singleRange f.min).meaning, numberValue f.max, .nan), t) := by
  obtain ⟨hsingle, hcolon⟩ := hjoined
  -- behind the warning there is a colon, and the number of the critical range
  obtain ⟨y, hy⟩ : ∃ y : NumberText, f.critical.text = colon :: y.text := by
    cases hfield : f.critical with
    | empty =>
      rw [hfield] at hcolon
      exact hcolon.elim
    | range inclusive form =>
      rw [hfield] at hcolon
      cases inclusive with
      | true => exact hcolon.elim
      | false =>
        cases form with
        | below y => exact ⟨y, rfl⟩
        | upTo x => exact hcolon.elim
        | atLeast x => exact hcolon.elim
        | between x y => exact hcolon.elim
        | atMost y => exact hcolon.elim
  have hcritical : next fs.tail t = colon :: (y.text ++ behind fs.tail.tail t) := by
    rw [h.tail.next, hy]
    rfl
  have hwarning : ∃ warning, extractRange (next fs t) = (warning, next fs.tail.tail t) := by
    rw [h.next]
    cases hfield : f.warning with
    | empty =>
      refine ⟨⟨.nan, valueOf y.text, false⟩, ?_⟩
      show extractRange (behind fs.tail t) = _
      rw [extractRange_other (head_behind_ne ht _ rfl), lowValue_boundary (boundary_behind ht _)
        (head_behind_ne ht _ rfl), afterSemicolon_behind ht, hcritical, highValue_number y ht]
    | range inclusive form =>
      rw [hfield] at hsingle
      cases form with
      | upTo x =>
        refine ⟨⟨valueOf x.text, valueOf y.text, inclusive⟩, ?_⟩
        have hlow : highValue inclusive (lowValue (x.text ++ behind fs.tail t)) =
            (⟨valueOf x.text, valueOf y.text, inclusive⟩, next fs.tail.tail t) := by
          rw [lowValue_number x (boundary_behind ht _), afterSemicolon_behind ht, hcritical,
            highValue_number y ht]
        cases inclusive with
        | true => exact hlow
        | false =>
          show extractRange (x.text ++ behind fs.tail t) = _
          rw [extractRange_other (x.head_ne rfl (by decide) _)]
          exact hlow
      | atLeast x => exact hsingle.elim
      | between x y => exact hsingle.elim
      | atMost y => exact hsingle.elim
      | below y => exact hsingle.elim
  obtain ⟨warning, hwarning⟩ := hwarning
  have hmin : extractRange (next fs.tail.tail t) =
      ((singleRange f.min).meaning, next fs.tail.tail.tail t) := by
    rw [h.tail.tail.next, ← text_singleRange, extractRange_field _ ht]
    intro _
    rw [h.tail.tail.tail.head]
    exact numberText_head f.max
  have hmax : extractDouble (next fs.tail.tail.tail t) true = (numberValue f.max, t) := by
    rw [h.tail.tail.tail.next, extractDouble_field f.max ht, h.tail.tail.tail.tail.nil]
    rfl
  have hend : extractDouble t true = (.nan, t) := extractDouble_field none ht []
  refine ⟨warning, ?_⟩
  unfold thresholds
  simp only [hwarning, hmin, hmax, hend]

/-- What a single number says is not what a range says that begins with a colon. -/
theorem meaning_singleRange_ne {field : RangeField} (h : field.Colon) (x : Option NumberText) :
    (singleRange x).meaning ≠ field.meaning := by
  intro heq
  cases field with
  | empty => exact h.elim
  | range inclusive form =>
    cases inclusive with
    | true => exact h.elim
    | false =>
      cases form with
      | below y =>
        cases x with
        | none => exact y.ne_nan (congrArg Range.high heq).symm
        | some x => cases congrArg Range.low heq
      | upTo x => exact h.elim
      | atLeast x => exact h.elim
      | between x y => exact h.elim
      | atMost y => exact h.elim

/-- `label=value[unit]` and fields. -/
def metricText (label vu : Bytes) (fs : List Bytes) : Bytes := label ++ equal :: (vu ++ behind fs [])

/-- The text of a metric, with the name and the type of its label and with its four fields. -/
structure MetricText (label vu : Bytes) (fs : List Bytes) (valueType : DataType) (name : Bytes)
    (f : Fields) : Prop where
  labelled : LabelText label valueType name
  value : valueOf vu ≠ .nan
  chars : ∀ c ∈ vu, isSeparator c = false
  unit : (adjust_size_utf8 (extractDouble vu false).2 unitNameSize).isSome = true
  fields : Written fs f.texts
  nul : (0 : UInt8) ∉ metricText label vu fs

namespace MetricText

variable {label vu name : Bytes} {valueType : DataType}

theorem ends_nil : Ends [] := by
  intro c hc
  cases hc

theorem parse (h : MetricText label vu fs valueType name f) {fields : Range × Range × Double × Double}
    (hthresholds : thresholds (Perfdata.next fs []) = (fields, [])) :
    ∃ unit, parsePerfdata (metricText label vu fs) = some [withValues
      { name := name, valueType := valueType } (valueOf vu) unit fields] := by
  obtain ⟨n, hn⟩ := Option.isSome_iff_exists.mp h.unit
  have hitem := item_text h.labelled [] (vu ++ behind fs [])
  rw [List.nil_append, List.length_nil, metric_text _ h.chars h.value ends_nil, hn, Option.map_some,
    hthresholds] at hitem
  have hhead : ∀ c ∈ (metricText label vu fs).head?, isBlank c = false := by
    intro c hc
    rw [metricText, List.head?_append_of_ne_nil _ h.labelled.ne_nil] at hc
    exact h.labelled.head c hc
  refine ⟨(extractDouble vu false).2.take n, ?_⟩
  rw [parsePerfdata_eq h.nul hhead, metricText, parseItems_item (by simp) hitem]
  dsimp only [List.dropWhile_nil]
  rw [parseItems_end (by simp)]
  rfl

theorem parse_aligned (h : MetricText label vu fs valueType name f) (hjoined : ¬ f.Joined) :
    ∃ pd, parsePerfdata (metricText label vu fs) = some [pd] ∧ f.Aligned pd := by
  obtain ⟨unit, hparse⟩ := h.parse (thresholds_aligned ends_nil h.fields hjoined)
  exact ⟨_, hparse, rfl, rfl, rfl, rfl⟩

theorem parse_joined (h : MetricText label vu fs valueType name f) (hjoined : f.Joined) :
    ∃ pd, parsePerfdata (metricText label vu fs) = some [pd] ∧ ¬ f.Aligned pd := by
  obtain ⟨warning, hthresholds⟩ := thresholds_joined ends_nil h.fields hjoined
  obtain ⟨unit, hparse⟩ := h.parse hthresholds
  refine ⟨_, hparse, ?_⟩
  intro haligned
  exact meaning_singleRange_ne hjoined.2 f.min haligned.critical

/-- **The attributes of a metric are what its fields say, each its own one, exactly when the critical
range does not begin with a colon behind a warning range that has none.** -/
theorem aligned_iff (h : MetricText label vu fs valueType name f) :
    ∃ pd, parsePerfdata (metricText label vu fs) = some [pd] ∧ (f.Aligned pd ↔ ¬ f.Joined) := by
  by_cases hjoined : f.Joined
  · obtain ⟨pd, hparse, haligned⟩ := h.parse_joined hjoined
    exact ⟨pd, hparse, iff_of_false haligned (not_not.mpr hjoined)⟩
  · obtain ⟨pd, hparse, haligned⟩ := h.parse_aligned hjoined
    exact ⟨pd, hparse, iff_of_true haligned hjoined⟩

theorem not_exists_aligned (h : MetricText label vu fs valueType name f) (hjoined : f.Joined) :
    ¬ ∃ pd, parsePerfdata (metricText label vu fs) = some [pd] ∧ f.Aligned pd := by
  intro ⟨pd, hparse, haligned⟩
  obtain ⟨pd', hparse', hnot⟩ := h.parse_joined hjoined
  rw [hparse] at hparse'
  cases hparse'
  exact hnot haligned

theorem plainName_m : PlainName [0x6D] :=
  ⟨by simp, by simp [isNameChar, quote], by simp, by simp⟩

/-- The metric `m` with the value 1 and some fields. -/
theorem of_fields (hfields : Written fs f.texts)
    (hnul : (0 : UInt8) ∉ metricText [0x6D] [0x31] fs) :
    MetricText [0x6D] [0x31] fs .gauge [0x6D] f where
  labelled := plainName_m.labelText (by decide) (by decide)
  value := Double.ofRat_ne_nan _
  chars := by simp [isSeparator, isBlank, semicolon]
  unit := rfl
  fields := hfields
  nul := hnul

/-- `m=1;10;@5:20;0`. -/
theorem aligned_iff_one :
    let f : Fields :=
      ⟨.range false (.upTo ⟨[0x31, 0x30], rfl, Double.ofRat_ne_nan _⟩),
        .range true (.between ⟨[0x35], rfl, Double.ofRat_ne_nan _⟩
          ⟨[0x32, 0x30], rfl, Double.ofRat_ne_nan _⟩),
        some ⟨[0x30], rfl, Double.ofRat_ne_nan _⟩, none⟩
    ∃ pd, parsePerfdata [0x6D, 0x3D, 0x31, 0x3B, 0x31, 0x30, 0x3B, 0x40, 0x35, 0x3A, 0x32, 0x30,
        0x3B, 0x30] = some [pd] ∧
      (f.Aligned pd ↔ ¬ f.Joined) := by
  intro f
  have htext : MetricText [0x6D] [0x31] [[0x31, 0x30], [0x40, 0x35, 0x3A, 0x32, 0x30], [0x30]]
      .gauge [0x6D] f :=
    of_fields ⟨3, rfl, by simp [f, Fields.texts, RangeField.text, RangeForm.text, numberText]⟩
      (by decide)
  exact aligned_iff htext

/-- `m=1;;:20`: the warning range is empty, and gets the high value of the critical one. -/
theorem not_aligned : ¬ ∀ label vu fs valueType name f, MetricText label vu fs valueType name f →
    ∃ pd, parsePerfdata (metricText label vu fs) = some [pd] ∧ f.Aligned pd := by
  intro h
  have htext : MetricText [0x6D] [0x31] [[], [0x3A, 0x32, 0x30]] .gauge [0x6D]
      ⟨.empty, .range false (.below ⟨[0x32, 0x30], rfl, Double.ofRat_ne_nan _⟩), none, none⟩ :=
    of_fields ⟨2, rfl, by simp [Fields.texts, numberText]⟩ (by decide)
  exact htext.not_exists_aligned ⟨trivial, trivial⟩ (h _ _ _ _ _ _ htext)

end MetricText

end CentreonBroker.Storage.Perfdata
