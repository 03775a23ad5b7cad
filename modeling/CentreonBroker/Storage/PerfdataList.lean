import CentreonBroker.Storage.PerfdataFields

/-!
# Lists of metrics

Metrics that are printed one behind the other, with a blank between two of them, are parsed as they
were. A name that has a type and brackets gives the type and what is between the brackets. The blanks
at the ends of a label go, and so does a bracket at its end.
-/

namespace CentreonBroker.Storage.Perfdata

open Strtod Misc Misc.Escape

/-- What is printed of a metric: its name, and the texts of its value and of its unit. -/
structure Printed where
  name : Bytes
  value : Bytes
  unit : Bytes

namespace Printed

/-- `label=value+unit`. -/
def text (m : Printed) : Bytes := labelOf m.name ++ equal :: (m.value ++ m.unit)

/-- Metrics with blanks between them. -/
def print : List Printed → Bytes
  | [] => []
  | m :: ms => m.text ++ if ms = [] then [] else 0x20 :: print ms

/-- The type and the name of a label: `a[…]`, `c[…]`, `d[…]` and `g[…]` are unwrapped. -/
def typed (name : Bytes) : DataType × Bytes :=
  if name.getLast? = some 0x5D then
    match typePrefix name 0 with
    | some valueType => (valueType, (name.drop 2).dropLast)
    | none => (.gauge, name)
  else (.gauge, name)

/-- The metric. -/
def metric (m : Printed) : Perfdata :=
  { name := (typed m.name).2, valueType := (typed m.name).1, value := valueOf m.value, unit := m.unit }

/-- A metric with a label of printable characters without quotes that is not too long, a number and a
unit without separators. -/
structure Printable (m : Printed) : Prop where
  ne_nil : m.name ≠ []
  chars : ∀ c ∈ m.name, isNameChar c = true
  length : m.name.length ≤ metricNameSize
  whole : Whole m.value
  number : valueOf m.value ≠ .nan
  plain : ∀ c ∈ m.value ++ m.unit, isSeparator c = false ∧ c ≠ 0

/-- A label that the code does not trim and of which it takes a bracket only with a type, and a unit
that does not go on with the number and is not too long. -/
structure Kept (m : Printed) : Prop where
  head : m.name.head? ≠ some 0x20
  last : m.name.getLast? ≠ some 0x20
  bracket : m.name.getLast? = some 0x5D → (typePrefix m.name 0).isSome = true ∧ 3 < m.name.length
  unit : extractDouble (m.value ++ m.unit) false = (valueOf m.value, m.unit)
  size : m.unit.length ≤ unitNameSize

variable {m : Printed}

theorem charAt_last {name : Bytes} {c : UInt8} (hc : c ≠ 0) :
    charAt name (name.length - 1) = c ↔ name.getLast? = some c := by
  rw [charAt, List.getLast?_eq_getElem?]
  cases h : name[name.length - 1]? with
  | none => simp [hc.symm]
  | some d => simp

/-- What is unwrapped is what has a type. -/
theorem unwrapped_eq {name : Bytes} (h : name.getLast? = some 0x5D → (typePrefix name 0).isSome = true) :
    unwrapped name = typed name := by
  rw [unwrapped, unwrap, typed]
  by_cases hbracket : name.getLast? = some 0x5D
  · obtain ⟨valueType, htype⟩ := Option.isSome_iff_exists.mp (h hbracket)
    rw [if_pos ((charAt_last (by decide)).mpr hbracket), if_pos hbracket, htype]
    dsimp only
    rw [Nat.zero_add, List.dropLast_eq_take, List.length_drop, List.drop_take]
    congr 2
  · rw [if_neg fun hlast => hbracket ((charAt_last (by decide)).mp hlast), if_neg hbracket]
    simp

theorem typed_ne_nil (h : m.Printable) (hk : m.Kept) : (typed m.name).2 ≠ [] := by
  rw [typed]
  split
  · rename_i hbracket
    obtain ⟨htype, hlong⟩ := hk.bracket hbracket
    obtain ⟨valueType, htype⟩ := Option.isSome_iff_exists.mp htype
    rw [htype]
    intro hnil
    have hlength := congrArg List.length hnil
    simp only [List.length_dropLast, List.length_drop, List.length_nil] at hlength
    omega
  · exact h.ne_nil

theorem labelText (h : m.Printable) (hk : m.Kept) :
    LabelText (labelOf m.name) (typed m.name).1 (typed m.name).2 := by
  have hplain : PlainName m.name := ⟨h.ne_nil, h.chars, hk.head, hk.last⟩
  have hunwrapped := unwrapped_eq fun hbracket => (hk.bracket hbracket).1
  have hlabel := hplain.labelText (by rw [hunwrapped]; exact typed_ne_nil h hk) h.length
  rwa [hunwrapped] at hlabel

/-- No field is written. -/
def noFields : Fields := ⟨.empty, .empty, none, none⟩

theorem written_noFields : Written [] noFields.texts := by
  refine ⟨0, rfl, ?_⟩
  intro f hf
  simpa [noFields, Fields.texts, RangeField.text, numberText] using hf

/-- One metric, in front of a blank or of the end. -/
theorem item_printed (h : m.Printable) (hk : m.Kept) (before : Bytes) {t : Bytes} (ht : Ends t) :
    item (before ++ (m.text ++ t)) before.length = some (some m.metric, t.dropWhile isSpace) := by
  have hvalue : valueOf (m.value ++ m.unit) = valueOf m.value := by rw [valueOf, hk.unit]
  have hplain : ∀ c ∈ m.value ++ m.unit, isSeparator c = false := fun c hc => (h.plain c hc).1
  have htext : m.text ++ t = labelOf m.name ++ equal :: (m.value ++ m.unit ++ behind [] t) := by
    simp [text, behind]
  have hadjust : adjust_size_utf8 m.unit unitNameSize = some m.unit.length := if_pos hk.size
  have hjoined : ¬ noFields.Joined := fun hjoined => hjoined.2
  rw [htext, item_text (labelText h hk), metric_text _ hplain (by rw [hvalue]; exact h.number) ht, hk.unit,
    hadjust, Option.map_some, thresholds_aligned ht written_noFields hjoined, List.take_length, hvalue]
  rfl

theorem head_text (h : m.Printable) (hk : m.Kept) (r : Bytes) :
    ∀ c ∈ (m.text ++ r).head?, isSpace c = false := by
  intro c hc
  have hne := (labelText h hk).ne_nil
  rw [text, List.append_assoc, List.head?_append_of_ne_nil _ hne, labelOf] at hc
  split at hc
  · cases hc
    rfl
  · cases hspace : isSpace c with
    | false => rfl
    | true =>
      obtain rfl := space_of_nameChar (h.chars c (List.mem_of_mem_head? hc)) hspace
      exact absurd hc hk.head

/-- What is between a metric and the other ones. -/
def separator (ms : List Printed) : Bytes := if ms = [] then [] else [0x20]

theorem print_cons (m : Printed) (ms : List Printed) :
    print (m :: ms) = m.text ++ (separator ms ++ print ms) := by
  rw [print, separator]
  split
  · rename_i hnil
    rw [hnil]
    rfl
  · rfl

theorem ends_separator (ms : List Printed) : Ends (separator ms ++ print ms) := by
  intro c hc
  cases ms with
  | nil => cases hc
  | cons m ms =>
    cases hc
    rfl

theorem dropWhile_separator {ms : List Printed} (h : ∀ m ∈ ms, m.Printable ∧ m.Kept) :
    (separator ms ++ print ms).dropWhile isSpace = print ms := by
  cases ms with
  | nil => rfl
  | cons m ms =>
    obtain ⟨hprintable, hkept⟩ := h m List.mem_cons_self
    have hhead := head_text hprintable hkept (separator ms ++ print ms)
    show (print (m :: ms)).dropWhile isSpace = _
    rw [print_cons]
    cases htext : m.text ++ (separator ms ++ print ms) with
    | nil => rfl
    | cons c s =>
      rw [htext] at hhead
      rw [List.dropWhile_cons_of_neg (by simp [hhead c rfl])]

/-- The loop takes one metric after the other. -/
theorem parseItems_print {ms : List Printed} (h : ∀ m ∈ ms, m.Printable ∧ m.Kept) (before : Bytes) :
    parseItems (before ++ print ms) before.length = some (ms.map Printed.metric) := by
  induction ms generalizing before with
  | nil => exact parseItems_end (by simp [print])
  | cons m ms ih =>
    obtain ⟨hprintable, hkept⟩ := h m List.mem_cons_self
    have hrest : ∀ m' ∈ ms, m'.Printable ∧ m'.Kept := fun m' hm' => h m' (List.mem_cons_of_mem m hm')
    have hitem := item_printed hprintable hkept before (ends_separator ms)
    rw [dropWhile_separator hrest] at hitem
    have hpos : 0 < m.text.length := by simp [text]
    have hmove : (before ++ (m.text ++ (separator ms ++ print ms))).length - (print ms).length =
        (before ++ m.text ++ separator ms).length := by
      simp only [List.length_append]
      omega
    rw [print_cons, parseItems_item (by simp only [List.length_append]; omega) hitem]
    dsimp only
    rw [hmove, ← List.append_assoc, ← List.append_assoc, ih hrest]
    rfl

theorem nul_notMem_text (h : m.Printable) : (0 : UInt8) ∉ m.text := by
  intro hnul
  have hname : (0 : UInt8) ∉ m.name := by
    intro hmem
    have hchar := h.chars 0 hmem
    cases hchar
  rcases List.mem_append.mp hnul with hnul | hnul
  · rw [labelOf] at hnul
    split at hnul
    · simp [quote, hname] at hnul
    · exact hname hnul
  · rcases List.mem_cons.mp hnul with hnul | hnul
    · cases hnul
    · exact (h.plain 0 hnul).2 rfl

theorem nul_notMem_print {ms : List Printed} (h : ∀ m ∈ ms, m.Printable) :
    (0 : UInt8) ∉ print ms := by
  induction ms with
  | nil => simp [print]
  | cons m ms ih =>
    have hseparator : (0 : UInt8) ∉ separator ms := by
      rw [separator]
      split <;> simp
    rw [print_cons, List.mem_append, List.mem_append, not_or, not_or]
    exact ⟨nul_notMem_text (h m List.mem_cons_self), hseparator,
      ih fun m' hm' => h m' (List.mem_cons_of_mem m hm')⟩

/-- **Metrics that are printed are parsed as they were.** -/
theorem parse_print {ms : List Printed} (h : ∀ m ∈ ms, m.Printable ∧ m.Kept) :
    parsePerfdata (print ms) = some (ms.map Printed.metric) := by
  rw [parsePerfdata_eq (nul_notMem_print fun m hm => (h m hm).1)]
  · exact parseItems_print h []
  · intro c hc
    cases ms with
    | nil => cases hc
    | cons m ms =>
      obtain ⟨hprintable, hkept⟩ := h m List.mem_cons_self
      rw [print_cons, text, List.append_assoc,
        List.head?_append_of_ne_nil _ (labelText hprintable hkept).ne_nil] at hc
      exact (labelText hprintable hkept).head c hc

/-- `a[x]=1 'b c'=10`. -/
theorem parse_print_two : parsePerfdata (print [⟨[0x61, 0x5B, 0x78, 0x5D], [0x31], []⟩,
    ⟨[0x62, 0x20, 0x63], [0x31, 0x30], [0x25]⟩]) = some ([⟨[0x61, 0x5B, 0x78, 0x5D], [0x31], []⟩,
    ⟨[0x62, 0x20, 0x63], [0x31, 0x30], [0x25]⟩].map Printed.metric) := by
  refine parse_print ?_
  intro m hm
  rcases List.mem_cons.mp hm with rfl | hm
  · exact ⟨⟨by simp, by simp [isNameChar, quote], by simp [metricNameSize], rfl, Double.ofRat_ne_nan _,
      by simp [isSeparator, isBlank, semicolon]⟩, ⟨by simp, by simp, fun _ => ⟨rfl, by simp⟩, rfl,
      by simp [unitNameSize]⟩⟩
  · obtain rfl := List.mem_singleton.mp hm
    exact ⟨⟨by simp, by simp [isNameChar, quote], by simp [metricNameSize], rfl, Double.ofRat_ne_nan _,
      by simp [isSeparator, isBlank, semicolon]⟩, ⟨by simp, by simp, by simp, rfl, by simp [unitNameSize]⟩⟩

/-- `'a '=1` has the name `a`. -/
theorem not_parse_print : ¬ ∀ ms, (∀ m ∈ ms, Printable m) →
    parsePerfdata (print ms) = some (ms.map Printed.metric) := by
  intro h
  have hprintable : Printable ⟨[0x61, 0x20], [0x31], []⟩ :=
    ⟨by simp, by simp [isNameChar, quote], by simp [metricNameSize], rfl, Double.ofRat_ne_nan _,
      by simp [isSeparator, isBlank, semicolon]⟩
  have hparse := h [⟨[0x61, 0x20], [0x31], []⟩] fun m hm => List.mem_singleton.mp hm ▸ hprintable
  have hprint : print [⟨[0x61, 0x20], [0x31], []⟩] = [0x27, 0x61, 0x20, 0x27, 0x3D, 0x31] := rfl
  have hlabel : label [0x27, 0x61, 0x20, 0x27, 0x3D, 0x31] 0
      (0 + labelLength false (([0x27, 0x61, 0x20, 0x27, 0x3D, 0x31] : Bytes).drop 0)) =
      some (.gauge, some [0x61]) := rfl
  have hitem : item [0x27, 0x61, 0x20, 0x27, 0x3D, 0x31] 0 =
      Perfdata.metric { name := [0x61] } ([0x31] ++ behind [] []) := by
    rw [item, hlabel, Option.bind_some]
    exact if_pos rfl
  have hadjust : adjust_size_utf8 (extractDouble [0x31] false).2 unitNameSize = some 0 := rfl
  have hvalue : valueOf [0x31] ≠ .nan := Double.ofRat_ne_nan _
  rw [metric_text _ (by simp [isSeparator, isBlank, semicolon]) hvalue MetricText.ends_nil, hadjust,
    Option.map_some] at hitem
  rw [hprint, parsePerfdata_eq (by simp) (by simp [isBlank]), parseItems_item (by simp) hitem] at hparse
  obtain ⟨pds, -, hpds⟩ := Option.map_eq_some_iff.mp hparse
  have hname := congrArg (fun pds => pds.head?.map Perfdata.name) hpds
  cases hname

end Printed

end CentreonBroker.Storage.Perfdata
