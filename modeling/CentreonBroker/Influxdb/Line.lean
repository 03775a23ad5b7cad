import CentreonBroker.Lib.Scheme
import CentreonBroker.Misc.Getters
import CentreonBroker.Lib.LineProtocol

/-!
# InfluxDB queries

A query is compiled from the name of the time series and the columns. Each name and each value is a
scheme of its own, and goes through the escaper of its place, piece by piece.
-/

namespace CentreonBroker.Influxdb

open Scheme Queries

/-- `column::type`. -/
inductive ColumnType where
  | string
  | number
  deriving DecidableEq, Repr

/-- `column`. -/
structure Column where
  name : List Char
  value : List Char
  is_flag : Bool
  type : ColumnType

/-- `data_escaper`. -/
inductive Escaper where
  | none
  | escape_key
  | escape_measurement
  | escape_value
  deriving DecidableEq, Repr

/-- `misc::string::replace` of a character with one more before it. -/
def replace (c : Char) (s : List Char) : List Char :=
  s.flatMap fun x => if x = c then ['\\', c] else [x]

def escapeKey (s : List Char) : List Char := replace ' ' (replace '=' (replace ',' s))

def escapeMeasurement (s : List Char) : List Char := replace ' ' (replace ',' s)

def escapeValue (s : List Char) : List Char := '"' :: (replace '"' s ++ ['"'])

def Escaper.apply : Escaper → List Char → List Char
  | .none => id
  | .escape_key => escapeKey
  | .escape_measurement => escapeMeasurement
  | .escape_value => escapeValue

/-- `_throw_on_invalid`, and the getter otherwise. -/
def throwOnInvalid (type : DataType) (getter : Getter) : Except String (List Getter) :=
  if type ≠ .metric then .error "influxdb: macro of invalid type" else .ok [getter]

/-- The getters of a macro. One that is not known is ignored. -/
def macroGetters (type : DataType) (name : List Char) : Except String (List Getter) :=
  if name = "$$".toList then .ok [.dollar_sign]
  else if name = "$METRICID$".toList then throwOnInvalid type .metric_id
  else if name = "$INSTANCE$".toList then .ok [.instance_name]
  else if name = "$INSTANCEID$".toList then .ok [.instance_id]
  else if name = "$HOST$".toList then .ok [.host]
  else if name = "$HOSTID$".toList then .ok [.host_id]
  else if name = "$SERVICE$".toList then .ok [.service]
  else if name = "$SERVICEID$".toList then .ok [.service_id]
  else if name = "$METRIC$".toList then throwOnInvalid type .metric_name
  else if name = "$INDEXID$".toList then .ok [.index_id]
  else if name = "$VALUE$".toList then .ok [.value]
  else if name = "$TIME$".toList then .ok [.time]
  else .ok []

/-- A compiled getter with its escaper, and the strings that are compiled with it. -/
abbrev Entry := (Getter × Escaper) × List (List Char)

/-- What `_compile_scheme` appends. -/
def compiler (type : DataType) (escaper : Escaper) : Compiler Entry String where
  literal substr := ((.string, escaper), [substr])
  macroOf name :=
    (macroGetters type name).map fun getters => getters.map fun getter => ((getter, escaper), [])
  unclosed rest :=
    "influxdb: can't compile query, opened macro not closed: '" ++ String.ofList rest ++ "'"

/-- `_append_compiled_string`, without an escaper, or `_compile_scheme`. -/
inductive Call where
  | append_compiled_string (s : List Char)
  | compile_scheme (scheme : List Char) (escaper : Escaper)

def Call.run (type : DataType) : Call → Except String (List Entry)
  | .append_compiled_string s => .ok [((.string, .none), [s])]
  | .compile_scheme scheme escaper => compile (compiler type escaper) scheme

/-- The calls for a flag. -/
def tagCalls (c : Column) : List Call :=
  [.append_compiled_string [','], .compile_scheme c.name .escape_key,
    .append_compiled_string ['='], .compile_scheme c.value .escape_key]

/-- The escaper of a field value. -/
def valueEscaper : ColumnType → Escaper
  | .number => .none
  | .string => .escape_value

/-- The calls for the fields, with the variable `first`. -/
def fieldCalls : Bool → List Column → List Call
  | _, [] => []
  | first, c :: columns =>
    if c.is_flag then fieldCalls first columns
    else
      (if first then [] else [.append_compiled_string [',']]) ++
        [.compile_scheme c.name .escape_key, .append_compiled_string ['='],
          .compile_scheme c.value (valueEscaper c.type)] ++ fieldCalls false columns

/-- The calls of the constructor. -/
def calls (timeseries : List Char) (columns : List Column) : List Call :=
  .compile_scheme timeseries .escape_measurement ::
    (columns.filter fun c => c.is_flag).flatMap tagCalls ++
    .append_compiled_string [' '] :: fieldCalls true columns ++
    (if columns.any fun c => !c.is_flag then [.append_compiled_string [' ']] else []) ++
    [.compile_scheme "$TIME$".toList .none, .append_compiled_string ['\n']]

/-- `line_protocol_query`. -/
structure Query where
  type : DataType
  compiled_getters : List (Getter × Escaper)
  compiled_strings : List (List Char)

/-- The constructor. -/
def Query.new (timeseries : List Char) (columns : List Column) (type : DataType) :
    Except String Query :=
  ((calls timeseries columns).mapM (Call.run type)).map fun compiled =>
    { type := type
      compiled_getters := compiled.flatten.map Prod.fst
      compiled_strings := compiled.flatten.flatMap Prod.snd }

section Generate

variable {δ : Type} (print : δ → List Char) (cache : MacroCache)

/-- The loop of `generate_metric` and `generate_status`. None when a getter throws. -/
def Query.text (q : Query) (d : Data δ) : Option (List Char) :=
  loop print cache Prod.fst (fun e => e.2.apply) q.compiled_strings d 0 q.compiled_getters

/-- `generate_metric`. -/
def Query.generateMetric (q : Query) (me : Metric δ) : Except String (List Char) :=
  if q.type ≠ .metric then
    .error "influxdb: attempt to generate metric with a query of the bad type"
  else .ok ((q.text print cache (.metric me)).getD [])

/-- `generate_status`. -/
def Query.generateStatus (q : Query) (st : Status) : Except String (List Char) :=
  if q.type ≠ .status then
    .error "influxdb: attempt to generate status with a query of the bad type"
  else .ok ((q.text print cache (.status st)).getD [])

end Generate

end CentreonBroker.Influxdb

/-!
## InfluxDB lines

What is generated is to be one line of the line protocol, and to be read back as the point that the
columns describe, with macros substituted.
-/

namespace CentreonBroker.Influxdb

open Scheme Queries LineProtocol

variable {δ : Type}

section Spec

variable (print : δ → List Char) (cache : MacroCache) (d : Data δ)

/-- What the getters of a macro write. -/
def macroPieces (name : List Char) : List (List Char) :=
  match macroGetters d.type name with
  | .ok getters => getters.map fun getter => (getter.raw print cache d).getD []
  | .error _ => []

/-- The substitution of a symbol. -/
def plain : Symbol → List Char
  | .char c => [c]
  | .macroOf name => (macroPieces print cache d name).flatten

/-- A scheme with its macros substituted. -/
def substitute (scheme : List Char) : List Char := (symbols scheme).flatMap (plain print cache d)

def chunkPieces : Chunk → List (List Char)
  | .literal text => [text]
  | .macroOf name => macroPieces print cache d name

/-- The pieces of a scheme: its literal text and what its macros stand for. -/
def pieces (scheme : List Char) : List (List Char) :=
  (chunks scheme).flatMap (chunkPieces print cache d)

def flags (columns : List Column) : List Column := columns.filter fun c => c.is_flag

def fields (columns : List Column) : List Column := columns.filter fun c => !c.is_flag

def fieldValue (c : Column) : FieldValue :=
  match c.type with
  | .number => .scalar (substitute print cache d c.value)
  | .string => .string (substitute print cache d c.value)

/-- What the columns describe. -/
def point (timeseries : List Char) (columns : List Column) : Point where
  measurement := substitute print cache d timeseries
  tags := (flags columns).map fun c =>
    (substitute print cache d c.name, substitute print cache d c.value)
  fields := (fields columns).map fun c =>
    (substitute print cache d c.name, fieldValue print cache d c)
  timestamp := some (showInt d.ctime)

/-- What the escaping can do: names that do not end with a backslash, numbers that are ones, strings
that are one piece with no backslash before a quote or another backslash; and no newline. -/
structure Preserved (timeseries : List Char) (columns : List Column) : Prop where
  fields : fields columns ≠ []
  newline : ∀ scheme ∈ timeseries :: columns.flatMap (fun c => [c.name, c.value]),
    '\n' ∉ substitute print cache d scheme
  measurement : GoodName (substitute print cache d timeseries)
  flags : ∀ c ∈ flags columns,
    GoodName (substitute print cache d c.name) ∧ GoodName (substitute print cache d c.value)
  names : ∀ c ∈ Influxdb.fields columns, GoodName (substitute print cache d c.name)
  numbers : ∀ c ∈ Influxdb.fields columns, c.type = .number →
    isScalar (substitute print cache d c.value)
  strings : ∀ c ∈ Influxdb.fields columns, c.type = .string →
    (pieces print cache d c.value).length = 1 ∧ isGoodText (substitute print cache d c.value)

/-- `generate_metric` or `generate_status`. -/
def Query.generate (q : Query) : Data δ → Except String (List Char)
  | .metric me => q.generateMetric print cache me
  | .status st => q.generateStatus print cache st

end Spec

/-! ## Escapers -/

theorem replace_eq (c : Char) (s : List Char) : replace c s = escape (fun x => x = c) s := by
  refine List.flatMap_congr fun x _ => ?_
  by_cases h : x = c
  · subst h
    simp
  · simp [h]

/-- One replacement after another, of characters that are not put in. -/
theorem replace_escape {special : Char → Bool} {c : Char} (hc : special c = false)
    (hslash : c ≠ '\\') (s : List Char) :
    replace c (escape special s) = escape (fun x => special x || x = c) s := by
  rw [replace, escape, List.flatMap_assoc]
  refine List.flatMap_congr fun x _ => ?_
  by_cases hx : special x
  · have hne : x ≠ c := by
      rintro rfl
      exact absurd hx (Bool.eq_false_iff.mp hc)
    simp [hx, hne, hslash.symm]
  · by_cases hxc : x = c
    · subst hxc
      simp [hx]
    · simp [hx, hxc]

variable (s : List Char)

theorem escapeKey_eq : escapeKey s = escape keySpecial s := by
  rw [escapeKey, replace_eq ',', replace_escape (by decide) (by decide),
    replace_escape (by decide) (by decide)]
  rfl

theorem escapeMeasurement_eq :
    escapeMeasurement s = escape measurementSpecial s := by
  rw [escapeMeasurement, replace_eq ',', replace_escape (by decide) (by decide)]
  rfl

theorem escapeValue_eq : escapeValue s = quoted s := by
  rw [escapeValue, replace_eq]
  rfl

/-! ## What is compiled -/

/-- What a call appends when it does not throw. -/
def Call.entries (type : DataType) : Call → List Entry
  | .append_compiled_string s => [((.string, .none), [s])]
  | .compile_scheme scheme escaper => (chunks scheme).flatMap (compiler type escaper).entries

theorem run_eq {type : DataType} {call : Call} {compiled : List Entry}
    (h : call.run type = .ok compiled) : compiled = call.entries type := by
  cases call with
  | append_compiled_string s =>
    cases h
    rfl
  | compile_scheme scheme escaper => exact compile_eq h

theorem mapM_run_eq {type : DataType} {cs : List Call} {compiled : List (List Entry)}
    (h : cs.mapM (Call.run type) = .ok compiled) : compiled = cs.map (Call.entries type) := by
  induction cs generalizing compiled with
  | nil =>
    cases h
    rfl
  | cons call cs ih =>
    rw [List.mapM_cons] at h
    cases hcall : call.run type with
    | error e =>
      rw [hcall] at h
      cases h
    | ok entries =>
      cases hcalls : cs.mapM (Call.run type) with
      | error e =>
        rw [hcall, hcalls] at h
        cases h
      | ok rest =>
        rw [hcall, hcalls] at h
        cases h
        rw [List.map_cons, run_eq hcall, ih hcalls]

theorem new_eq {timeseries : List Char} {columns : List Column} {type : DataType} {q : Query}
    (h : Query.new timeseries columns type = .ok q) :
    q = { type := type
          compiled_getters := ((calls timeseries columns).flatMap (Call.entries type)).map Prod.fst
          compiled_strings :=
            ((calls timeseries columns).flatMap (Call.entries type)).flatMap Prod.snd } := by
  unfold Query.new at h
  cases hcompiled : (calls timeseries columns).mapM (Call.run type) with
  | error e =>
    rw [hcompiled] at h
    cases h
  | ok compiled =>
    rw [hcompiled, mapM_run_eq hcompiled] at h
    cases h
    rfl

/-- The getters, if there are any, are not the one for strings. -/
def NoString (result : Except String (List Getter)) : Prop :=
  ∀ getters, result = .ok getters → ∀ getter ∈ getters, getter ≠ .string

theorem NoString.ite {p : Prop} [Decidable p] {x y : Except String (List Getter)} (hx : NoString x)
    (hy : NoString y) : NoString (if p then x else y) := by
  split
  · exact hx
  · exact hy

theorem NoString.single {getter : Getter} (h : getter ≠ .string) : NoString (.ok [getter]) := by
  intro getters hgetters
  cases hgetters
  exact List.forall_mem_singleton.mpr h

theorem NoString.error (e : String) : NoString (.error e) := by
  intro getters hgetters
  cases hgetters

theorem noString_macroGetters (type : DataType) (name : List Char) :
    NoString (macroGetters type name) := by
  unfold macroGetters throwOnInvalid
  repeat' apply NoString.ite
  all_goals first
    | exact NoString.single (by decide)
    | exact NoString.error _
    | exact fun getters hgetters => by cases hgetters; exact List.forall_mem_nil _

/-- What a macro is compiled to. -/
theorem entries_macroOf (type : DataType) (escaper : Escaper) (name : List Char) :
    (compiler type escaper).entries (.macroOf name) = match macroGetters type name with
      | .ok getters => getters.map fun getter => ((getter, escaper), [])
      | .error _ => [] := by
  unfold Compiler.entries compiler
  dsimp only
  cases macroGetters type name <;> rfl

theorem paired_of_entries {type : DataType} (call : Call) :
    ∀ e ∈ call.entries type, Paired Prod.fst e := by
  intro e he
  cases call with
  | append_compiled_string s =>
    rw [List.mem_singleton.mp he]
    exact ⟨s, rfl⟩
  | compile_scheme scheme escaper =>
    obtain ⟨chunk, -, hchunk⟩ := List.mem_flatMap.mp he
    cases chunk with
    | literal text =>
      rw [List.mem_singleton.mp hchunk]
      exact ⟨text, rfl⟩
    | macroOf name =>
      rw [entries_macroOf] at hchunk
      cases hgetters : macroGetters type name with
      | error e =>
        rw [hgetters] at hchunk
        exact absurd hchunk List.not_mem_nil
      | ok getters =>
        rw [hgetters] at hchunk
        obtain ⟨getter, hmem, rfl⟩ := List.mem_map.mp hchunk
        rw [Paired, if_neg (noString_macroGetters _ _ _ hgetters getter hmem)]

/-! ## What is written -/

section Text

variable {print : δ → List Char} {cache : MacroCache} {d : Data δ}

/-- What is written for an entry. -/
def written (print : δ → List Char) (cache : MacroCache) (d : Data δ) (e : Entry) : List Char :=
  e.1.2.apply (entryText print cache Prod.fst d e)

/-- What is written for a call. -/
def Call.text (print : δ → List Char) (cache : MacroCache) (d : Data δ) : Call → List Char
  | .append_compiled_string s => s
  | .compile_scheme scheme escaper => (pieces print cache d scheme).flatMap escaper.apply

theorem flatMap_written (call : Call) :
    (call.entries d.type).flatMap (written print cache d) = call.text print cache d := by
  cases call with
  | append_compiled_string s =>
    show [s].flatten ++ [] = s
    rw [List.append_nil, List.flatten_singleton]
  | compile_scheme scheme escaper =>
    rw [Call.entries, Call.text, pieces, List.flatMap_assoc, List.flatMap_assoc]
    refine List.flatMap_congr fun chunk _ => ?_
    cases chunk with
    | literal text =>
      show escaper.apply [text].flatten ++ [] = escaper.apply text ++ []
      rw [List.flatten_singleton]
    | macroOf name =>
      rw [entries_macroOf, chunkPieces, macroPieces]
      cases hgetters : macroGetters d.type name with
      | error e => rfl
      | ok getters =>
        dsimp only
        rw [List.flatMap_map, List.flatMap_map]
        refine List.flatMap_congr fun getter hmem => ?_
        rw [written, entryText, if_neg (noString_macroGetters _ _ _ hgetters getter hmem)]

/-- **The text** that a query writes is that of its calls. -/
theorem text_of_new {timeseries : List Char} {columns : List Column} {type : DataType} {q : Query}
    (hnew : Query.new timeseries columns type = .ok q) (htype : d.type = type) {text : List Char}
    (h : q.text print cache d = some text) :
    text = (calls timeseries columns).flatMap (Call.text print cache d) := by
  subst htype
  rw [new_eq hnew] at h
  have hpaired : ∀ e ∈ (calls timeseries columns).flatMap (Call.entries d.type),
      Paired Prod.fst e := by
    intro e he
    obtain ⟨call, -, hcall⟩ := List.mem_flatMap.mp he
    exact paired_of_entries call e hcall
  rw [loop_eq [] hpaired rfl h]
  refine List.flatMap_assoc.trans (List.flatMap_congr fun call _ => ?_)
  exact flatMap_written call

variable (scheme : List Char)

theorem flatten_pieces :
    (pieces print cache d scheme).flatten = substitute print cache d scheme := by
  rw [pieces, List.flatten_eq_flatMap, List.flatMap_assoc]
  refine flatMap_chunks ?_ ?_ scheme
  · intro text
    show text ++ [] = text.flatMap fun c => [c]
    simp
  · intro name
    exact List.flatten_eq_flatMap.symm

/-- Characters are escaped one by one, so that pieces make no difference. -/
theorem flatMap_escape (special : Char → Bool) (scheme : List Char) :
    (pieces print cache d scheme).flatMap (escape special) =
      escape special (substitute print cache d scheme) := by
  rw [← flatten_pieces, escape, List.flatten_eq_flatMap, List.flatMap_assoc]
  rfl

theorem text_key :
    (Call.compile_scheme scheme .escape_key).text print cache d =
      escape keySpecial (substitute print cache d scheme) :=
  (List.flatMap_congr fun s _ => escapeKey_eq s).trans (flatMap_escape keySpecial scheme)

theorem text_measurement :
    (Call.compile_scheme scheme .escape_measurement).text print cache d =
      escape measurementSpecial (substitute print cache d scheme) :=
  (List.flatMap_congr fun s _ => escapeMeasurement_eq s).trans
    (flatMap_escape measurementSpecial scheme)

theorem text_none :
    (Call.compile_scheme scheme .none).text print cache d = substitute print cache d scheme :=
  List.flatten_eq_flatMap.symm.trans (flatten_pieces scheme)

theorem text_time : (Call.compile_scheme "$TIME$".toList .none).text print cache d =
    showInt d.ctime := by
  cases d <;> exact List.append_nil _

/-- The value of a field as it is written. -/
def writtenValue (print : δ → List Char) (cache : MacroCache) (d : Data δ) (c : Column) : Written :=
  match c.type with
  | .number => .scalar (substitute print cache d c.value)
  | .string => .strings (pieces print cache d c.value)

def writtenField (print : δ → List Char) (cache : MacroCache) (d : Data δ) (c : Column) :
    List Char × Written := (substitute print cache d c.name, writtenValue print cache d c)

def writtenTag (print : δ → List Char) (cache : MacroCache) (d : Data δ) (c : Column) :
    List Char × List Char := (substitute print cache d c.name, substitute print cache d c.value)

variable (c : Column)

theorem text_value :
    (Call.compile_scheme c.value (valueEscaper c.type)).text print cache d =
      (writtenValue print cache d c).text := by
  unfold writtenValue
  cases c.type with
  | number => exact text_none c.value
  | string => exact List.flatMap_congr fun s _ => escapeValue_eq s

theorem flatMap_tagCalls (columns : List Column) :
    ((flags columns).flatMap tagCalls).flatMap (Call.text print cache d) =
      ((flags columns).map (writtenTag print cache d)).flatMap tagText := by
  rw [List.flatMap_assoc, List.flatMap_map]
  refine List.flatMap_congr fun c _ => ?_
  simp only [tagCalls, List.flatMap_cons, List.flatMap_nil, text_key, tagText, writtenTag]
  simp [Call.text]

/-- The commas stand between the fields. -/
theorem flatMap_fieldCalls (first : Bool) (columns : List Column) :
    (fieldCalls first columns).flatMap (Call.text print cache d) =
      (if first ∨ fields columns = [] then [] else [',']) ++
        fieldsText ((fields columns).map (writtenField print cache d)) := by
  induction columns generalizing first with
  | nil => simp [fieldCalls, fields, fieldsText]
  | cons c columns ih =>
    by_cases hflag : c.is_flag
    · rw [fieldCalls, if_pos hflag, ih]
      simp [fields, hflag]
    · have hfields : fields (c :: columns) = c :: fields columns :=
        List.filter_cons_of_pos (by simp [hflag])
      have hfield : fieldsText ((fields (c :: columns)).map (writtenField print cache d)) =
          fieldText (writtenField print cache d c) ++
            ((if fields columns = [] then [] else [',']) ++
              fieldsText ((fields columns).map (writtenField print cache d))) := by
        rw [hfields]
        cases fields columns with
        | nil => simp [fieldsText]
        | cons c' columns' => simp [fieldsText]
      rw [hfield, fieldCalls, if_neg hflag, List.flatMap_append, ih, hfields, List.flatMap_append]
      simp only [List.flatMap_cons, List.flatMap_nil, text_key, text_value, fieldText, writtenField]
      cases first <;> simp [Call.text]

variable (timeseries : List Char)

/-- The text of all calls. Without a field there is no second space. -/
theorem flatMap_calls (columns : List Column) :
    (calls timeseries columns).flatMap (Call.text print cache d) =
      headText (substitute print cache d timeseries)
          ((flags columns).map (writtenTag print cache d)) ++
        (fieldsText ((fields columns).map (writtenField print cache d)) ++
          ((if fields columns = [] then [] else [' ']) ++ (showInt d.ctime ++ ['\n']))) := by
  have hany : (columns.any fun c => !c.is_flag) ↔ ¬ fields columns = [] := by
    rw [fields, List.filter_eq_nil_iff, List.any_eq_true]
    simp
  have htags := @flatMap_tagCalls δ print cache d columns
  unfold flags at htags
  have hfields := @flatMap_fieldCalls δ print cache d true columns
  rw [if_pos (Or.inl rfl), List.nil_append] at hfields
  have hspace : (if columns.any fun c => !c.is_flag then
      [Call.append_compiled_string [' ']] else []).flatMap (Call.text print cache d) =
        if fields columns = [] then [] else [' '] := by
    by_cases h : fields columns = []
    · rw [if_neg (fun ha => hany.mp ha h), if_pos h]
      rfl
    · rw [if_pos (hany.mpr h), if_neg h]
      rfl
  simp only [calls, List.flatMap_append, List.flatMap_cons, List.flatMap_nil, text_measurement,
    htags, hfields, hspace, text_time, headText, flags, List.append_assoc, List.append_nil]
  rfl

theorem isInteger_showInt (n : ℤ) : isInteger (showInt n) := by
  have hdigits : ∀ n, isDigits (Decimal.digits n) := by
    intro n
    have hall : (Decimal.digits n).all Char.isDigit :=
      List.all_eq_true.mpr fun c hc => Decimal.isDigit_of_mem_digits hc
    simp [isDigits, hall, Decimal.digits_ne_nil]
  unfold showInt
  split
  · exact hdigits _
  · unfold isInteger
    split
    · rename_i s heq
      have hmem : '-' ∈ Decimal.digits n.natAbs := heq ▸ List.mem_cons_self
      exact absurd (Decimal.isDigit_of_mem_digits hmem) (by decide)
    · exact hdigits _

/-! ## What is read back -/

theorem good_writtenValue_iff : (writtenValue print cache d c).Good ↔
    (c.type = .number → isScalar (substitute print cache d c.value)) ∧
      (c.type = .string → (pieces print cache d c.value).length = 1 ∧
        isGoodText (substitute print cache d c.value)) := by
  unfold writtenValue
  cases htype : c.type with
  | number => simp [Written.Good]
  | string =>
    -- one piece is the whole text
    have hone : (∃ text, pieces print cache d c.value = [text] ∧ isGoodText text) ↔
        (pieces print cache d c.value).length = 1 ∧
          isGoodText (substitute print cache d c.value) := by
      rw [← flatten_pieces]
      constructor
      · rintro ⟨text, hpieces, hgood⟩
        rw [hpieces, List.flatten_singleton]
        exact ⟨rfl, hgood⟩
      · rintro ⟨hlength, hgood⟩
        obtain ⟨text, hpieces⟩ := List.length_eq_one_iff.mp hlength
        rw [hpieces, List.flatten_singleton] at hgood
        exact ⟨text, hpieces, hgood⟩
    simpa [Written.Good] using hone

theorem newline_mem_value_iff : '\n' ∈ (writtenValue print cache d c).text ↔
    '\n' ∈ substitute print cache d c.value := by
  rw [mem_text_iff (by decide) (by decide), ← flatten_pieces, writtenValue]
  cases c.type with
  | number => rw [flatten_pieces]
  | string => rfl

theorem newline_not_mem_showInt (n : ℤ) : '\n' ∉ showInt n := by
  intro h
  rcases isDigit_of_mem_showInt h with hminus | hdigit
  · cases hminus
  · exact absurd hdigit (by decide)

/-- No newline in the line is none in what is substituted. -/
theorem newline_iff (columns : List Column) :
    '\n' ∉ lineText (substitute print cache d timeseries)
        ((flags columns).map (writtenTag print cache d))
        ((fields columns).map (writtenField print cache d)) (showInt d.ctime) ↔
      ∀ scheme ∈ timeseries :: columns.flatMap (fun c => [c.name, c.value]),
        '\n' ∉ substitute print cache d scheme := by
  have hcolumns : ∀ c, c ∈ columns ↔ c ∈ flags columns ∨ c ∈ fields columns := by
    intro c
    rw [flags, fields, List.mem_filter, List.mem_filter]
    cases c.is_flag <;> simp
  have htags : (∃ tag ∈ (flags columns).map (writtenTag print cache d),
      '\n' ∈ tag.1 ∨ '\n' ∈ tag.2) ↔ ∃ c ∈ flags columns,
        '\n' ∈ substitute print cache d c.name ∨ '\n' ∈ substitute print cache d c.value := by
    simp [writtenTag]
  have hfields : (∃ field ∈ (fields columns).map (writtenField print cache d),
      '\n' ∈ field.1 ∨ '\n' ∈ field.2.text) ↔ ∃ c ∈ fields columns,
        '\n' ∈ substitute print cache d c.name ∨ '\n' ∈ substitute print cache d c.value := by
    simp [writtenField, newline_mem_value_iff]
  rw [newline_mem_lineText_iff (newline_not_mem_showInt _), htags, hfields]
  constructor
  · intro h scheme hscheme
    rcases List.mem_cons.mp hscheme with rfl | hmem
    · exact fun hn => h (.inl hn)
    · obtain ⟨c, hc, hscheme⟩ := List.mem_flatMap.mp hmem
      intro hn
      have hor : '\n' ∈ substitute print cache d c.name ∨
          '\n' ∈ substitute print cache d c.value := by
        rcases List.mem_cons.mp hscheme with rfl | hvalue
        · exact .inl hn
        · exact .inr (List.mem_singleton.mp hvalue ▸ hn)
      exact h (.inr (((hcolumns c).mp hc).imp (fun hc => ⟨c, hc, hor⟩) fun hc => ⟨c, hc, hor⟩))
  · intro h
    have hcolumn : ∀ c ∈ columns, ¬ ('\n' ∈ substitute print cache d c.name ∨
        '\n' ∈ substitute print cache d c.value) := by
      intro c hc
      have hmem : ∀ scheme ∈ [c.name, c.value], '\n' ∉ substitute print cache d scheme :=
        fun scheme hs => h scheme (List.mem_cons_of_mem _ (List.mem_flatMap.mpr ⟨c, hc, hs⟩))
      exact not_or.mpr ⟨hmem _ List.mem_cons_self, hmem _ (by simp)⟩
    rintro (hn | ⟨c, hc, hn⟩ | ⟨c, hc, hn⟩)
    · exact h timeseries List.mem_cons_self hn
    · exact hcolumn c ((hcolumns c).mpr (.inl hc)) hn
    · exact hcolumn c ((hcolumns c).mpr (.inr hc)) hn

theorem readAs_writtenField : readAs (writtenField print cache d c) =
    (substitute print cache d c.name, fieldValue print cache d c) := by
  rw [readAs, writtenField, writtenValue, fieldValue]
  cases c.type with
  | number => rfl
  | string => rw [Written.value, flatten_pieces]

/-- The text of the calls is read back as the point exactly when the point is preserved. -/
theorem read_calls_iff (columns : List Column) :
    read ((calls timeseries columns).flatMap (Call.text print cache d)) =
        some (point print cache d timeseries columns) ↔
      Preserved print cache d timeseries columns := by
  rw [flatMap_calls]
  by_cases hnil : fields columns = []
  · constructor
    · intro h
      rw [← List.append_assoc, ← List.append_assoc, ← List.append_assoc] at h
      have hpoint := readLine_fields_ne_nil ((read_iff _ _).mp h).2
      rw [point, hnil] at hpoint
      exact absurd rfl hpoint
    · exact fun h => absurd hnil h.fields
  · have htext : headText (substitute print cache d timeseries)
          ((flags columns).map (writtenTag print cache d)) ++
        (fieldsText ((fields columns).map (writtenField print cache d)) ++
          ((if fields columns = [] then [] else [' ']) ++ (showInt d.ctime ++ ['\n']))) =
        lineText (substitute print cache d timeseries)
          ((flags columns).map (writtenTag print cache d))
          ((fields columns).map (writtenField print cache d)) (showInt d.ctime) ++ ['\n'] := by
      simp [lineText, hnil]
    have hpoint : point print cache d timeseries columns =
        ⟨substitute print cache d timeseries, (flags columns).map (writtenTag print cache d),
          ((fields columns).map (writtenField print cache d)).map readAs,
          some (showInt d.ctime)⟩ := by
      rw [List.map_map]
      exact congrArg (fun fs => Point.mk _ _ fs _)
        (List.map_congr_left fun c _ => (readAs_writtenField c).symm)
    have hmap : (fields columns).map (writtenField print cache d) ≠ [] :=
      fun h => hnil (List.map_eq_nil_iff.mp h)
    rw [htext, hpoint, read_iff, newline_iff, readLine_iff hmap (isInteger_showInt _),
      List.forall_mem_map, List.forall_mem_map]
    constructor
    · rintro ⟨hnewline, hmeasurement, htags, hfields⟩
      have hvalues := fun c hc => (good_writtenValue_iff c).mp (hfields c hc).2
      exact ⟨hnil, hnewline, hmeasurement, htags, fun c hc => (hfields c hc).1,
        fun c hc => (hvalues c hc).1, fun c hc => (hvalues c hc).2⟩
    · intro h
      exact ⟨h.newline, h.measurement, h.flags, fun c hc =>
        ⟨h.names c hc, (good_writtenValue_iff c).mpr ⟨h.numbers c hc, h.strings c hc⟩⟩⟩

/-- **An InfluxDB line.** When the macros resolve, what is generated is one line that is read back
as the point of the columns, if and only if the escaping preserves its names and values. -/
theorem generate_read_iff {timeseries : List Char} {columns : List Column} {type : DataType}
    {q : Query} (hnew : Query.new timeseries columns type = .ok q) (htype : d.type = type)
    {text : List Char} (htext : q.text print cache d = some text) :
    q.generate print cache d = .ok text ∧
      (read text = some (point print cache d timeseries columns) ↔
        Preserved print cache d timeseries columns) := by
  have hq : d.type = q.type := by rw [htype, new_eq hnew]
  refine ⟨?_, text_of_new hnew htype htext ▸ read_calls_iff timeseries columns⟩
  cases d with
  | metric me =>
    rw [Query.generate, Query.generateMetric, if_neg (fun h => h hq.symm), htext, Option.getD_some]
  | status st =>
    rw [Query.generate, Query.generateStatus, if_neg (fun h => h hq.symm), htext, Option.getD_some]

end Text

/-- A field with a text. -/
def hostField (value : List Char) : Column :=
  { name := ['h'], value := value, is_flag := false, type := .string }

/-- A tag, a number, and a text with spaces and commas. -/
def hostColumns : List Column :=
  [{ name := ['t'], value := "$HOST$".toList, is_flag := true, type := .string },
    { name := ['v'], value := "$VALUE$".toList, is_flag := false, type := .number },
    hostField "a, b = \"c\"".toList]

theorem generate_read_iff_host : ∃ q text,
    Query.new ['m'] hostColumns .metric = .ok q ∧
      q.generate Decimal.digits (oneHost ['s', 'r', ' ', 'v']) (.metric loadOne) = .ok text ∧
      (read text = some (point Decimal.digits (oneHost ['s', 'r', ' ', 'v']) (.metric loadOne) ['m']
          hostColumns) ↔
        Preserved Decimal.digits (oneHost ['s', 'r', ' ', 'v']) (.metric loadOne) ['m']
          hostColumns) :=
  ⟨_, _, rfl, generate_read_iff rfl rfl rfl⟩

/-- A string field that is literal text and a macro is written as two strings. -/
theorem not_generate_read : ¬ ∀ (cache : MacroCache) (timeseries : List Char)
    (columns : List Column) (type : DataType) (q : Query) (d : Data ℕ) (text : List Char),
    Query.new timeseries columns type = .ok q → d.type = type →
      q.text Decimal.digits cache d = some text →
        read text = some (point Decimal.digits cache d timeseries columns) := by
  intro h
  obtain ⟨q, text, hnew, htext⟩ : ∃ q text,
      Query.new ['m'] [hostField "x$HOST$".toList] .metric = .ok q ∧
        q.text Decimal.digits (oneHost ['s', 'r', 'v']) (.metric loadOne) = some text :=
    ⟨_, _, rfl, rfl⟩
  have hread := h _ _ _ _ _ _ _ hnew rfl htext
  rw [text_of_new hnew rfl htext] at hread
  have hpreserved := (read_calls_iff _ _).mp hread
  have hstring := hpreserved.strings (hostField "x$HOST$".toList) List.mem_cons_self rfl
  exact absurd hstring.1 (by decide)

end CentreonBroker.Influxdb
