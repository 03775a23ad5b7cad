import CentreonBroker.Storage.Perfdata

/-!
# The texts of performance data

A number, a range or a label is read from its own text, whatever is behind it, as long as what is
behind begins with a character that is in no number. The comma that stands for a point may be in any
text behind the number, where it changes nothing.
-/

namespace CentreonBroker.Storage.Perfdata

open Strtod Misc Misc.Escape

/-! ## Numbers -/

/-- It is the end, or a character that is in no number and that does not become a point. -/
def Boundary (r : Bytes) : Prop := ∀ c ∈ r.head?, isNumberChar c = false ∧ c ≠ comma

/-- What `strtod` is called with. -/
def prepared (str : Bytes) : Bytes :=
  if comma ∈ str then
    str.takeWhile (· != comma) ++
      point :: ((str.dropWhile (· != comma)).takeWhile (!isSeparator ·)).tail
  else str

variable {a : Bytes}

theorem split_comma (h : comma ∉ a) (b : Bytes) :
    (a ++ comma :: b).takeWhile (· != comma) = a ∧ (a ++ comma :: b).dropWhile (· != comma) = comma :: b := by
  have hall : ∀ c ∈ a, (c != comma) = true := by
    intro c hc
    simp only [bne_iff_ne]
    intro heq
    exact h (heq ▸ hc)
  constructor
  · rw [List.takeWhile_append_of_pos hall]
    simp
  · rw [List.dropWhile_append_of_pos hall]
    simp

theorem prepared_comma (h : comma ∉ a) (b : Bytes) :
    prepared (a ++ comma :: b) = a ++ point :: b.takeWhile (!isSeparator ·) := by
  obtain ⟨htake, hdrop⟩ := split_comma h b
  rw [prepared, if_pos (by simp), htake, hdrop]
  rfl

theorem prepared_plain (h : comma ∉ a) : prepared a = a := if_neg h

variable {str : Bytes}

theorem exists_split_comma (h : comma ∈ str) :
    ∃ a b, str = a ++ comma :: b ∧ comma ∉ a := List.eq_append_cons_of_mem h

theorem length_prepared (str : Bytes) : (prepared str).length ≤ str.length := by
  by_cases h : comma ∈ str
  · obtain ⟨a, b, rfl, ha⟩ := exists_split_comma h
    have hle := (List.takeWhile_prefix (!isSeparator ·) (l := b)).length_le
    rw [prepared_comma ha]
    simp only [List.length_append, List.length_cons]
    omega
  · rw [prepared_plain h]

theorem number_eq (str : Bytes) : number str =
    (if (strtod (prepared str)).2.length = (prepared str).length then .nan
      else (strtod (prepared str)).1,
      str.drop ((prepared str).length - (strtod (prepared str)).2.length)) := by
  by_cases h : comma ∈ str
  · rw [number, if_pos h, prepared, if_pos h]
  · rw [number, if_neg h, prepared_plain h]
    have hsuffix := strtod_suffix str
    rw [← List.suffix_iff_eq_drop.mp hsuffix]

theorem takeWhile_append {α : Type} (p : α → Bool) (a b : List α) :
    ∃ c, (a ++ b).takeWhile p = a.takeWhile p ++ c ∧ c <+: b := by
  induction a with
  | nil => exact ⟨b.takeWhile p, rfl, List.takeWhile_prefix p⟩
  | cons x a ih =>
    obtain ⟨c, hc, hprefix⟩ := ih
    cases hx : p x with
    | true => exact ⟨c, by simp [hx, hc], hprefix⟩
    | false => exact ⟨[], by simp [hx], List.nil_prefix⟩

variable {r : Bytes}

theorem Boundary.stops (h : Boundary r) : Stops r := fun c hc => (h c hc).1

variable {s : Bytes}

theorem stops_of_prefix (h : Stops r) (hs : s <+: r) : Stops s := by
  intro c hc
  obtain ⟨t, rfl⟩ := hs
  exact h c (by rw [List.head?_append, hc]; rfl)

/-- More behind a text is more behind what is read. -/
theorem prepared_append (s : Bytes) (hr : Boundary r) :
    ∃ t, prepared (s ++ r) = prepared s ++ t ∧ Stops t := by
  by_cases hs : comma ∈ s
  · obtain ⟨a, b, rfl, ha⟩ := exists_split_comma hs
    obtain ⟨t, ht, hprefix⟩ := takeWhile_append (!isSeparator ·) b r
    refine ⟨t, ?_, stops_of_prefix hr.stops hprefix⟩
    rw [List.append_assoc, List.cons_append, prepared_comma ha, prepared_comma ha, ht]
    simp
  · by_cases hcomma : comma ∈ r
    · -- the comma is behind the first character
      obtain ⟨a, b, rfl, ha⟩ := exists_split_comma hcomma
      cases a with
      | nil => exact absurd rfl (hr comma rfl).2
      | cons c a =>
        refine ⟨c :: a ++ point :: b.takeWhile (!isSeparator ·), ?_, ?_⟩
        · rw [← List.append_assoc, prepared_comma, prepared_plain hs, List.append_assoc]
          rw [List.mem_append]
          exact fun h => h.elim hs ha
        · intro d hd
          exact (hr d hd).1
    · refine ⟨r, ?_, hr.stops⟩
      rw [prepared_plain hs, prepared_plain]
      rw [List.mem_append]
      exact fun h => h.elim hs hcomma

theorem head_prepared (h : ∀ c ∈ str.head?, isSpace c = false) :
    ∀ c ∈ (prepared str).head?, isSpace c = false := by
  by_cases hcomma : comma ∈ str
  · obtain ⟨a, b, rfl, ha⟩ := exists_split_comma hcomma
    rw [prepared_comma ha]
    cases a with
    | nil =>
      intro c hc
      cases hc
      rfl
    | cons d a => exact h
  · rw [prepared_plain hcomma]
    exact h

/-- **A number does not depend on what is behind it.** -/
theorem number_append (hspace : ∀ c ∈ (s ++ r).head?, isSpace c = false)
    (hr : Boundary r) : number (s ++ r) = ((number s).1, (number s).2 ++ r) := by
  obtain ⟨t, ht, hstops⟩ := prepared_append s hr
  have hhead := head_prepared hspace
  rw [ht] at hhead
  have hlen := length_prepared s
  rw [number_eq, number_eq, ht, strtod_append hhead hstops]
  simp only [List.length_append]
  have hsame : (prepared s).length + t.length - ((strtod (prepared s)).2.length + t.length) =
      (prepared s).length - (strtod (prepared s)).2.length := by omega
  rw [hsame, List.drop_append_of_le_length (by omega)]
  congr 1
  exact if_congr (by omega) rfl rfl

theorem boundary_nil : Boundary [] := by
  intro c hc
  cases hc

variable {c : UInt8}

theorem boundary_cons (hc : isNumberChar c = false) (hne : c ≠ comma) :
    Boundary (c :: r) := by
  intro d hd
  cases hd
  exact ⟨hc, hne⟩

/-- Nothing is no number. -/
theorem number_nil : number [] = (.nan, []) := by
  rw [number_eq, prepared_plain (by simp)]
  rfl

theorem number_boundary (hspace : ∀ c ∈ r.head?, isSpace c = false) (hr : Boundary r) :
    number r = (.nan, r) := by
  have h := number_append (s := []) hspace hr
  rw [number_nil] at h
  exact h

theorem any_isSpace_eq :
    r.head?.any isSpace = false ↔ ∀ c ∈ r.head?, isSpace c = false := by
  cases r with
  | nil => simp
  | cons c r => simp

/-- Where there is no number, none is read. -/
theorem extractDouble_boundary (hr : Boundary r) :
    extractDouble r false = (.nan, r) := by
  rw [extractDouble]
  split
  · rfl
  · rename_i hspace
    rw [number_boundary (any_isSpace_eq.mp (Bool.eq_false_iff.mpr hspace)) hr]
    rfl

theorem extractDouble_append (s : Bytes) (hr : Boundary r) :
    extractDouble (s ++ r) false = ((extractDouble s false).1, (extractDouble s false).2 ++ r) := by
  cases s with
  | nil =>
    rw [List.nil_append, extractDouble_boundary hr, extractDouble_boundary boundary_nil]
    rfl
  | cons c s =>
    rw [extractDouble, extractDouble, List.cons_append]
    cases hc : isSpace c with
    | true => simp [hc]
    | false =>
      have hspace : ∀ d ∈ ((c :: s) ++ r).head?, isSpace d = false := by
        intro d hd
        cases hd
        exact hc
      rw [if_neg (by simp [hc]), if_neg (by simp [hc]), ← List.cons_append, number_append hspace hr]
      rfl

theorem extractDouble_skip (str : Bytes) :
    extractDouble str true = ((extractDouble str false).1, afterSemicolon (extractDouble str false).2) := by
  rw [extractDouble, extractDouble, afterSemicolon]
  split
  · rename_i hspace
    rw [if_neg]
    intro hsemicolon
    rw [hsemicolon] at hspace
    cases hspace
  · dsimp only
    refine Prod.ext rfl ?_
    simp

/-- The value of a text. -/
def valueOf (s : Bytes) : Double := (extractDouble s false).1

/-- A text that is read to its end. -/
def Whole (s : Bytes) : Prop := (extractDouble s false).2 = []

theorem whole_nil : Whole [] := by rw [Whole, extractDouble_boundary boundary_nil]

theorem valueOf_nil : valueOf [] = .nan := by rw [valueOf, extractDouble_boundary boundary_nil]

theorem Whole.extractDouble (h : Whole s) (hr : Boundary r) :
    extractDouble (s ++ r) true = (valueOf s, afterSemicolon r) := by
  rw [extractDouble_skip, extractDouble_append s hr, h, List.nil_append]
  rfl

/-- The text of a number. -/
structure NumberText where
  text : Bytes
  whole : Whole text
  ne_nan : valueOf text ≠ .nan

/-- It begins like a number. -/
theorem NumberText.head_ne (x : NumberText) (hc : isNumberChar c = false) (hne : c ≠ comma)
    (r : Bytes) : (x.text ++ r).head? ≠ some c := by
  intro hhead
  cases htext : x.text with
  | nil => exact x.ne_nan (by rw [htext, valueOf_nil])
  | cons d s =>
    rw [htext, List.cons_append] at hhead
    obtain rfl : d = c := Option.some.inj hhead
    refine x.ne_nan ?_
    rw [htext, valueOf, extractDouble_boundary (boundary_cons hc hne)]

/-! ## Fields -/

/-- A metric ends, or a blank follows it. -/
def Ends (t : Bytes) : Prop := ∀ c ∈ t.head?, isBlank c = true

/-- What is behind a field: the other ones, each with its semicolon, and the end of the metric. -/
def behind (fs : List Bytes) (t : Bytes) : Bytes := fs.flatMap (semicolon :: ·) ++ t

/-- What is read next. -/
def next (fs : List Bytes) (t : Bytes) : Bytes := fs.headD [] ++ behind fs.tail t

theorem isBlank_iff : isBlank c = true ↔ c = 0x20 ∨ c = 0x0A ∨ c = 0x0D ∨ c = 0x09 := by
  simp [isBlank, or_assoc]

variable {fs : List Bytes} {t : Bytes}

theorem boundary_behind (ht : Ends t) (fs : List Bytes) : Boundary (behind fs t) := by
  cases fs with
  | cons f fs => exact boundary_cons rfl (by decide)
  | nil =>
    intro c hc
    rcases isBlank_iff.mp (ht c hc) with rfl | rfl | rfl | rfl <;> decide

theorem head_behind_ne (ht : Ends t) (fs : List Bytes)
    (hc : isSeparator c = false) : (behind fs t).head? ≠ some c := by
  intro hhead
  cases fs with
  | cons f fs =>
    cases hhead
    cases hc
  | nil =>
    rw [isSeparator, ht c hhead] at hc
    cases hc

theorem afterSemicolon_behind (ht : Ends t) (fs : List Bytes) :
    afterSemicolon (behind fs t) = next fs t := by
  cases fs with
  | cons f fs => simp [afterSemicolon, behind, next]
  | nil =>
    rw [afterSemicolon, if_neg]
    · rfl
    · intro hsemicolon
      have hblank := ht semicolon hsemicolon
      cases hblank

theorem length_behind_le (ht : Ends t) (fs : List Bytes) :
    (behind fs t).length ≤ (next fs t).length + 1 := by
  rw [← afterSemicolon_behind ht, afterSemicolon]
  split
  · rw [List.length_tail]
    omega
  · omega

/-- The next field begins with a colon when its text does. -/
theorem head_next (ht : Ends t) (fs : List Bytes) :
    (next fs t).head? = some colon ↔ (fs.headD []).head? = some colon := by
  rw [next]
  cases h : fs.headD [] with
  | nil => exact iff_of_false (head_behind_ne ht fs.tail rfl) (by simp)
  | cons c s => rfl

/-! ## Ranges -/

/-- The low value of a range. -/
def lowValue (str : Bytes) : Double × Bytes :=
  if str.head? = some 0x7E then (.infinity true, str.tail) else extractDouble str true

/-- The high value of a range, behind its low one. -/
def highValue (inclusive : Bool) (low : Double × Bytes) : Range × Bytes :=
  if low.2.head? ≠ some colon then
    (⟨if low.1 = .nan then low.1 else .number 0, low.1, inclusive⟩, low.2)
  else
    let high := extractDouble low.2.tail true
    (⟨low.1,
      if high.1 = .nan && low.2.tail.length ≤ high.2.length + 1 then .infinity false else high.1,
      inclusive⟩, high.2)

theorem extractRange_other (h : str.head? ≠ some 0x40) :
    extractRange str = highValue false (lowValue str) := by
  unfold extractRange
  rw [beq_eq_false_iff_ne.mpr h]
  rfl

theorem lowValue_number (x : NumberText) (hr : Boundary r) :
    lowValue (x.text ++ r) = (valueOf x.text, afterSemicolon r) := by
  rw [lowValue, if_neg (x.head_ne rfl (by decide) r), x.whole.extractDouble hr]

theorem lowValue_boundary (hr : Boundary r) (htilde : r.head? ≠ some 0x7E) :
    lowValue r = (.nan, afterSemicolon r) := by
  rw [lowValue, if_neg htilde, extractDouble_skip, extractDouble_boundary hr]

variable {inclusive : Bool}

theorem highValue_none {v : Double} (h : r.head? ≠ some colon) :
    highValue inclusive (v, r) = (⟨if v = .nan then v else .number 0, v, inclusive⟩, r) := if_pos h

theorem highValue_number {v : Double} (y : NumberText) (ht : Ends t) :
    highValue inclusive (v, colon :: (y.text ++ behind fs t)) =
      (⟨v, valueOf y.text, inclusive⟩, next fs t) := by
  rw [highValue, if_neg (by simp)]
  dsimp only [List.tail_cons]
  rw [y.whole.extractDouble (boundary_behind ht fs), afterSemicolon_behind ht]
  simp [y.ne_nan]

theorem highValue_infinity {v : Double} (ht : Ends t) :
    highValue inclusive (v, colon :: behind fs t) = (⟨v, .infinity false, inclusive⟩, next fs t) := by
  have hlength := length_behind_le ht fs
  rw [highValue, if_neg (by simp)]
  dsimp only [List.tail_cons]
  rw [extractDouble_skip, extractDouble_boundary (boundary_behind ht fs)]
  dsimp only
  rw [afterSemicolon_behind ht]
  simp [hlength]

/-! ## Metrics -/

theorem metric_eq (p : Perfdata) (str : Bytes) :
    metric p str =
      if valueOf str = .nan then some (none, skip (extractDouble str false).2)
      else
        let rest := (extractDouble str false).2
        let unit := rest.takeWhile (!isSeparator ·)
        let fields := thresholds (afterSemicolon (rest.dropWhile (!isSeparator ·)))
        (adjust_size_utf8 unit unitNameSize).map fun n =>
          (some (p.withValues (valueOf str) (unit.take n) fields.1), fields.2.dropWhile isSpace) := by
  unfold metric valueOf
  dsimp only

/-- **A metric is its value, its unit and its fields.** -/
theorem metric_text (p : Perfdata) {vu : Bytes} (hvu : ∀ c ∈ vu, isSeparator c = false)
    (hvalue : valueOf vu ≠ .nan) (ht : Ends t) (fs : List Bytes) :
    metric p (vu ++ behind fs t) = (adjust_size_utf8 (extractDouble vu false).2 unitNameSize).map fun n =>
      (some (p.withValues (valueOf vu) ((extractDouble vu false).2.take n) (thresholds (next fs t)).1),
        (thresholds (next fs t)).2.dropWhile isSpace) := by
  have hunit : ∀ c ∈ (extractDouble vu false).2, (!isSeparator c) = true := by
    intro c hc
    rw [hvu c ((extractDouble_suffix vu false).subset hc)]
    rfl
  have hstop : ∀ c ∈ (behind fs t).head?, (!isSeparator c) = false := by
    intro c hc
    cases fs with
    | cons f fs =>
      cases hc
      rfl
    | nil => simp [isSeparator, ht c hc]
  have htake : ((extractDouble vu false).2 ++ behind fs t).takeWhile (!isSeparator ·) =
      (extractDouble vu false).2 := by
    rw [takeWhile_append_stop _ hstop, List.takeWhile_eq_self_iff.mpr hunit]
  have hdrop : ((extractDouble vu false).2 ++ behind fs t).dropWhile (!isSeparator ·) =
      behind fs t := by
    rw [dropWhile_append_stop _ hstop, List.dropWhile_eq_nil_iff.mpr hunit, List.nil_append]
  have happend := extractDouble_append vu (boundary_behind ht fs)
  rw [metric_eq, valueOf, happend, if_neg (by exact hvalue)]
  dsimp only
  rw [htake, hdrop, afterSemicolon_behind ht]
  rfl

/-! ## Items -/

/-- `label` is the text of a label, wherever it stands in front of an equal sign: its type and its name
are taken from it. -/
structure LabelText (label : Bytes) (valueType : DataType) (name : Bytes) : Prop where
  head : ∀ c ∈ label.head?, isBlank c = false
  length : ∀ rest, labelLength false (label ++ equal :: rest) = label.length
  found : ∀ before rest, Perfdata.label (before ++ (label ++ equal :: rest)) before.length
    (before.length + label.length) = some (valueType, some name)

theorem item_text {label name : Bytes} {valueType : DataType} (h : LabelText label valueType name)
    (before rest : Bytes) :
    item (before ++ (label ++ equal :: rest)) before.length =
      metric { name := name, valueType := valueType } rest := by
  rw [item]
  dsimp only
  rw [List.drop_left, h.length rest, h.found before rest, Option.bind_some]
  have hdrop : (before ++ (label ++ equal :: rest)).drop (before.length + label.length) =
      equal :: rest := by
    rw [← List.append_assoc, List.drop_left' (by simp)]
  dsimp only
  rw [hdrop]
  rfl

theorem LabelText.ne_nil {label name : Bytes} {valueType : DataType}
    (h : LabelText label valueType name) : label ≠ [] := by
  intro hnil
  -- in front of the string, nothing is read
  have hfound := h.found [] []
  rw [hnil] at hfound
  cases hfound

/-! ## Labels -/

/-- The characters of a name: none that is a space but the blank itself, no quote, and no NUL. -/
def isNameChar (c : UInt8) : Bool := 0x20 ≤ c && c != quote

/-- A name that neither begins nor ends with a blank. -/
structure PlainName (name : Bytes) : Prop where
  ne_nil : name ≠ []
  chars : ∀ c ∈ name, isNameChar c = true
  head : name.head? ≠ some 0x20
  last : name.getLast? ≠ some 0x20

/-- A name with a blank or an equal sign stands between quotes. -/
def labelOf (name : Bytes) : Bytes :=
  if 0x20 ∈ name ∨ equal ∈ name then quote :: (name ++ [quote]) else name

/-- What is made of a name: a type, and the name without brackets. -/
def unwrapped (name : Bytes) : DataType × Bytes :=
  let (valueType, s, stop) := unwrap name 0 name.length
  (valueType, (name.take stop).drop s)

theorem nameChar_ne_quote (h : isNameChar c = true) : c ≠ quote := by
  simp only [isNameChar, Bool.and_eq_true, bne_iff_ne] at h
  exact h.2

theorem space_of_nameChar (h : isNameChar c = true) (hspace : isSpace c = true) :
    c = 0x20 := by
  simp only [isNameChar, Bool.and_eq_true, decide_eq_true_eq] at h
  simp only [isSpace, Bool.or_eq_true, Bool.and_eq_true, beq_iff_eq, decide_eq_true_eq] at hspace
  rcases hspace with heq | hle
  · exact heq
  · have hlt : (0x20 : UInt8) ≤ 0x0D := UInt8.le_trans h.1 hle.2
    exact absurd hlt (by decide)

theorem blank_of_nameChar (h : isNameChar c = true)
    (hblank : (isBlank c || c == 0) = true) : c = 0x20 := by
  simp only [isNameChar, Bool.and_eq_true, decide_eq_true_eq] at h
  simp only [Bool.or_eq_true, beq_iff_eq, isBlank_iff] at hblank
  rcases hblank with (rfl | rfl | rfl | rfl) | rfl
  · rfl
  all_goals exact absurd h.1 (by decide)

/-- Characters that are no quotes, and that pass. -/
theorem labelLength_append {inQuote : Bool}
    (h : ∀ c ∈ s, c ≠ quote ∧ ((inQuote || (c != equal && !isSpace c)) || decide (128 ≤ c)) = true)
    (r : Bytes) : labelLength inQuote (s ++ r) = s.length + labelLength inQuote r := by
  induction s with
  | nil => simp
  | cons c s ih =>
    obtain ⟨hquote, hpass⟩ := h c List.mem_cons_self
    rw [List.cons_append, labelLength, if_pos hpass, if_neg hquote,
      ih fun d hd => h d (List.mem_cons_of_mem c hd), List.length_cons]
    omega

theorem labelLength_equal (rest : Bytes) : labelLength false (equal :: rest) = 0 := rfl

theorem PlainName.length_label {name : Bytes} (h : PlainName name) (rest : Bytes) :
    labelLength false (labelOf name ++ equal :: rest) = (labelOf name).length := by
  rw [labelOf]
  split
  · -- between the quotes, everything passes
    have hinside : ∀ c ∈ name, c ≠ quote ∧
        ((true || (c != equal && !isSpace c)) || decide (128 ≤ c)) = true :=
      fun c hc => ⟨nameChar_ne_quote (h.chars c hc), rfl⟩
    have hopen : labelLength false (quote :: (name ++ quote :: equal :: rest)) =
        labelLength true (name ++ quote :: equal :: rest) + 1 := rfl
    have hclose : labelLength true (quote :: equal :: rest) = 1 := rfl
    rw [List.cons_append, List.append_assoc, List.singleton_append, hopen, labelLength_append hinside,
      hclose]
    simp
  · rename_i hplain
    rw [not_or] at hplain
    rw [labelLength_append, labelLength_equal, Nat.add_zero]
    intro c hc
    refine ⟨nameChar_ne_quote (h.chars c hc), ?_⟩
    have hequal : c ≠ equal := by
      intro heq
      exact hplain.2 (heq ▸ hc)
    have hspace : isSpace c = false := by
      cases hs : isSpace c with
      | false => rfl
      | true => exact absurd (space_of_nameChar (h.chars c hc) hs ▸ hc) hplain.1
    simp [hequal, hspace]

theorem charAt_append (a b : Bytes) (i : ℕ) : charAt (a ++ b) (a.length + i) = charAt b i := by
  rw [charAt, charAt, List.getElem?_append_right (by omega)]
  congr 2
  omega

theorem charAt_append_left (b : Bytes) {i : ℕ} (hi : i < a.length) :
    charAt (a ++ b) i = charAt a i := by
  rw [charAt, charAt, List.getElem?_append_left hi]

theorem charAt_mem {i : ℕ} (hi : i < a.length) : charAt a i ∈ a := by
  rw [charAt, List.getElem?_eq_getElem hi]
  exact List.getElem_mem hi

theorem charAt_inside (a b : Bytes) {name : Bytes} {i : ℕ} (hi : i < name.length) :
    charAt (a ++ (name ++ b)) (a.length + i) = charAt name i := by
  rw [charAt_append, charAt_append_left b hi]

namespace PlainName

variable {name : Bytes}

/-- The blanks at its end are none. -/
theorem trimEnd (h : PlainName name) (a b : Bytes) :
    Perfdata.trimEnd (a ++ (name ++ b)) a.length (a.length + name.length) =
      some (a.length + name.length) := by
  obtain ⟨init, last, rfl⟩ : ∃ init last, name = init ++ [last] := by
    rcases List.eq_nil_or_concat name with hnil | ⟨init, last, hconcat⟩
    · exact absurd hnil h.ne_nil
    · exact ⟨init, last, by rw [hconcat, List.concat_eq_append]⟩
  have hlast : charAt (a ++ (init ++ [last] ++ b)) (a.length + init.length) = last := by
    rw [charAt_inside a b (by simp)]
    simp [charAt]
  have hlength : a.length + (init ++ [last]).length = a.length + init.length + 1 := by simp; omega
  rw [hlength, Perfdata.trimEnd, if_neg]
  rw [hlast]
  intro hblank
  have hspace := blank_of_nameChar (h.chars last (by simp)) hblank.2
  exact h.last (by rw [List.getLast?_concat, hspace])

theorem not_blank (h : PlainName name) (b : Bytes) : (name ++ b).takeWhile isBlank = [] := by
  cases name with
  | nil => exact absurd rfl h.ne_nil
  | cons c s =>
    rw [List.cons_append, List.takeWhile_cons_of_neg]
    intro hblank
    have hspace := blank_of_nameChar (h.chars c List.mem_cons_self) (by simp [hblank])
    exact h.head (by rw [hspace]; rfl)

end PlainName

/-- The type is looked for in the name only: one that is a bracket alone has none. -/
theorem typePrefix_inside {name : Bytes} (hbracket : charAt name (name.length - 1) = 0x5D)
    (hne : name ≠ []) (a b : Bytes) : typePrefix (a ++ (name ++ b)) a.length = typePrefix name 0 := by
  have hpos := List.length_pos_of_ne_nil hne
  have hfirst := charAt_inside a b (i := 0) hpos
  rw [Nat.add_zero] at hfirst
  by_cases hlong : 1 < name.length
  · rw [typePrefix, typePrefix, hfirst, charAt_inside a b hlong]
  · have hone : name.length - 1 = 0 := by omega
    rw [hone] at hbracket
    have hsecond : charAt name (0 + 1) = 0 := by
      rw [charAt, List.getElem?_eq_none (by omega)]
      rfl
    rw [typePrefix, typePrefix, hfirst, hbracket, hsecond]
    split <;> rfl

theorem unwrap_inside {name : Bytes} (hne : name ≠ []) (a b : Bytes) :
    unwrap (a ++ (name ++ b)) a.length (a.length + name.length) =
      ((unwrap name 0 name.length).1, a.length + (unwrap name 0 name.length).2.1,
        a.length + (unwrap name 0 name.length).2.2) := by
  have hpos := List.length_pos_of_ne_nil hne
  have hlast : charAt (a ++ (name ++ b)) (a.length + name.length - 1) =
      charAt name (name.length - 1) := by
    rw [Nat.add_sub_assoc hpos, charAt_inside a b (by omega)]
  rw [unwrap, unwrap, hlast]
  split
  · rename_i hbracket
    rw [typePrefix_inside hbracket hne, Nat.add_sub_assoc hpos]
    cases typePrefix name 0 with
    | none => rfl
    | some valueType => simp
  · rfl

theorem unwrap_le (name : Bytes) : (unwrap name 0 name.length).2.2 ≤ name.length := by
  rw [unwrap]
  split
  · split
    · exact Nat.sub_le _ _
    · exact Nat.sub_le _ _
  · exact Nat.le_refl _

theorem slice_inside (a b : Bytes) {name : Bytes} (s : ℕ) {stop : ℕ} (hstop : stop ≤ name.length) :
    ((a ++ (name ++ b)).take (a.length + stop)).drop (a.length + s) = (name.take stop).drop s := by
  rw [List.take_length_add_append, List.take_append_of_le_length hstop, List.drop_length_add_append]

/-- The second half of the search for a label, behind its quotes. -/
theorem label_inside {name : Bytes} (h : PlainName name) (hne : (unwrapped name).2 ≠ [])
    (hlength : name.length ≤ metricNameSize) (a b : Bytes) {tmp stop : ℕ}
    (hstr : str = a ++ (name ++ b)) (hstop : 0 < stop)
    (hs : (if charAt str tmp = quote then tmp + 1 else tmp) = a.length)
    (hend : (if charAt str (stop - 1) = quote then stop - 1 else stop) = a.length + name.length) :
    label str tmp stop = some ((unwrapped name).1, some (unwrapped name).2) := by
  have hdrop : (str.drop a.length).takeWhile isBlank = [] := by
    rw [hstr, List.drop_left, h.not_blank b]
  have hslice := slice_inside a b (unwrap name 0 name.length).2.1 (unwrap_le name)
  have hlt : (unwrap name 0 name.length).2.1 < (unwrap name 0 name.length).2.2 := by
    by_contra hge
    refine hne ?_
    show (name.take (unwrap name 0 name.length).2.2).drop (unwrap name 0 name.length).2.1 = []
    refine List.drop_eq_nil_of_le ?_
    rw [List.length_take]
    omega
  have hadjust : adjust_size_utf8 (unwrapped name).2 metricNameSize = some (unwrapped name).2.length := by
    refine if_pos (Nat.le_trans ?_ hlength)
    exact Nat.le_trans (List.drop_suffix _ _).length_le (List.length_take_le' _ _)
  have htrim := h.trimEnd a b
  rw [← hstr] at htrim hslice
  have hunwrap := unwrap_inside h.ne_nil a b
  rw [← hstr] at hunwrap
  unfold label
  dsimp only
  rw [if_neg (by omega), hs, hend, hdrop, List.length_nil, Nat.add_zero, htrim, Option.bind_some, hunwrap]
  dsimp only
  rw [if_pos (by omega), hslice]
  show (adjust_size_utf8 (unwrapped name).2 metricNameSize).map _ = _
  rw [hadjust, Option.map_some]
  show some (_, some ((unwrapped name).2.take (unwrapped name).2.length)) = _
  rw [List.take_length]
  rfl

/-- **A name is found in its label**, without its brackets and their type. -/
theorem PlainName.labelText {name : Bytes} (h : PlainName name) (hne : (unwrapped name).2 ≠ [])
    (hlength : name.length ≤ metricNameSize) :
    LabelText (labelOf name) (unwrapped name).1 (unwrapped name).2 where
  head := by
    intro c hc
    rw [labelOf] at hc
    split at hc
    · cases hc
      rfl
    · cases hblank : isBlank c with
      | false => rfl
      | true =>
        have hspace := blank_of_nameChar (h.chars c (List.mem_of_mem_head? hc)) (by simp [hblank])
        exact absurd (by rw [← hspace]; exact hc) h.head
  length := h.length_label
  found before rest := by
    have hpos := List.length_pos_of_ne_nil h.ne_nil
    rw [labelOf]
    split
    · -- one quote is in front of the name and one is behind it
      refine label_inside h hne hlength (before ++ [quote]) (quote :: equal :: rest) ?_ (by simp) ?_ ?_
      · simp
      · rw [if_pos]
        · simp
        · have hquote := charAt_append before (quote :: (name ++ [quote]) ++ equal :: rest) 0
          rw [Nat.add_zero] at hquote
          rw [hquote]
          rfl
      · have hlast : charAt (before ++ (quote :: (name ++ [quote]) ++ equal :: rest))
            (before.length + (quote :: (name ++ [quote])).length - 1) = quote := by
          have hindex : before.length + (quote :: (name ++ [quote])).length - 1 =
              (before ++ quote :: name).length + 0 := by simp
          rw [hindex]
          simp [charAt]
        rw [if_pos hlast]
        simp
        omega
    · refine label_inside h hne hlength before (equal :: rest) rfl (by omega) ?_ ?_
      · rw [if_neg]
        have hfirst := charAt_inside before (equal :: rest) (i := 0) hpos
        rw [Nat.add_zero] at hfirst
        rw [hfirst]
        exact nameChar_ne_quote (h.chars _ (charAt_mem hpos))
      · rw [if_neg]
        rw [Nat.add_sub_assoc hpos, charAt_inside before _ (by omega)]
        exact nameChar_ne_quote (h.chars _ (charAt_mem (by omega)))

/-- A string without a NUL that does not begin with a blank is parsed from its first position. -/
theorem parsePerfdata_eq (hnul : (0 : UInt8) ∉ str)
    (hhead : ∀ c ∈ str.head?, isBlank c = false) : parsePerfdata str = parseItems str 0 := by
  have hall : ∀ c ∈ str, (c != 0) = true := by
    intro c hc
    simp only [bne_iff_ne]
    intro heq
    exact hnul (heq ▸ hc)
  have hblank : str.takeWhile isBlank = [] := by
    cases str with
    | nil => rfl
    | cons c s => rw [List.takeWhile_cons, hhead c rfl, if_neg Bool.false_ne_true]
  rw [parsePerfdata, List.takeWhile_eq_self_iff.mpr hall, hblank]
  rfl

end CentreonBroker.Storage.Perfdata
