import CentreonBroker.Lib.Scheme
import CentreonBroker.Misc.Getters

/-!
# Graphite queries

The naming scheme is compiled to getters. For a metric or a status these write a path, dots of the
names replaced by the escape string and spaces by underscores, behind which come the value and the
time.
-/

namespace CentreonBroker.Graphite

open Scheme Queries

/-- `query`. -/
structure Query where
  escape_string : List Char
  type : DataType
  compiled_naming_scheme : List (List Char)
  compiled_getters : List Getter

/-- `_throw_on_invalid`, and the getter otherwise. -/
def throwOnInvalid (type : DataType) (getter : Getter) : Except String (List Getter) :=
  if type ≠ .metric then .error "graphite: macro of invalid type" else .ok [getter]

/-- The getters of a macro. One that is not known is ignored. -/
def macroGetters (type : DataType) (name : List Char) : Except String (List Getter) :=
  if name = "$$".toList then .ok [.dollar_sign]
  else if name = "$METRICID$".toList then throwOnInvalid type .metric_id
  else if name = "$INSTANCE$".toList then .ok [.instance_name]
  else if name = "$INSTANCEID$".toList then .ok [.instance_id]
  else if name = "$HOST$".toList then .ok [.host]
  else if name = "$HOSTID$".toList then .ok [.host_id]
  else if name = "$SERVICE$".toList then .ok [.service]
  else if name = "$SERVICEID$".toList then .ok [.service_id]
  else if name = "$METRIC$".toList then throwOnInvalid type .metric_name
  else if name = "$INDEXID$".toList then .ok [.index_id]
  else .ok []

/-- What is appended to the getters, and to the strings of the scheme. -/
def compiler (type : DataType) : Compiler (Getter × List (List Char)) String where
  literal substr := (.string, [substr])
  macroOf name := (macroGetters type name).map fun getters => getters.map fun getter => (getter, [])
  unclosed rest :=
    "graphite: can't compile query, opened macro not closed: '" ++ String.ofList rest ++ "'"

/-- The constructor. -/
def Query.new (naming_scheme escape_string : List Char) (type : DataType) : Except String Query :=
  (compile (compiler type) naming_scheme).map fun compiled =>
    { escape_string := escape_string
      type := type
      compiled_naming_scheme := compiled.flatMap Prod.snd
      compiled_getters := compiled.map Prod.fst }

section Getters

variable {δ : Type} (print : δ → List Char) (cache : MacroCache)

/-- `_escape`. -/
def escape (escape_string str : List Char) : List Char :=
  str.flatMap fun c => if c = '.' then escape_string else [c]

/-- The getters that write a name escape it. -/
def escapes : Getter → Bool
  | .instance_name | .host | .service | .metric_name => true
  | _ => false

/-- `replace(escaped, " ", "_")`. -/
def underscores (s : List Char) : List Char := s.map fun c => if c = ' ' then '_' else c

/-- What becomes of what a getter writes. -/
def write (escape_string : List Char) (getter : Getter) (s : List Char) : List Char :=
  underscores (if escapes getter then escape escape_string s else s)

/-- The path of the line. None when a getter throws. -/
def Query.path (q : Query) (d : Data δ) : Option (List Char) :=
  loop print cache id (write q.escape_string) q.compiled_naming_scheme d 0 q.compiled_getters

/-- The line, empty when a getter throws. -/
def line (path : Option (List Char)) (value : List Char) (ctime : ℤ) : List Char :=
  match path with
  | some path => path ++ ' ' :: (value ++ ' ' :: (showInt ctime ++ ['\n']))
  | none => []

/-- `generate_metric`. -/
def Query.generateMetric (q : Query) (me : Metric δ) : Except String (List Char) :=
  if q.type ≠ .metric then
    .error "graphite: attempt to generate metric with a query of the bad type"
  else .ok (line (q.path print cache (.metric me)) (print me.value) me.ctime)

/-- `generate_status`. -/
def Query.generateStatus (q : Query) (st : Status) : Except String (List Char) :=
  if q.type ≠ .status then
    .error "graphite: attempt to generate status with a query of the bad type"
  else
    .ok (line (q.path print cache (.status st)) (showInt st.state) st.ctime)

end Getters

end CentreonBroker.Graphite

/-!
## Graphite lines

A line has three fields, the path, the value and the time. The path is to have the components of the
naming scheme, whatever the names are that the macros stand for.
-/

namespace CentreonBroker.Graphite

open Scheme Queries

variable {δ : Type}

/-- A space, a tab or what ends a line or a page. -/
def isBlank (c : Char) : Bool := Decimal.isSpace c

/-- One line of three fields that single spaces separate, with these components in the first one. -/
def OneLine (text : List Char) (components : List (List Char)) (value time : List Char) : Prop :=
  ∃ line path, text.splitOn '\n' = [line, []] ∧ line.splitOn ' ' = [path, value, time] ∧
    (∀ c ∈ line, isBlank c → c = ' ') ∧ path.splitOn '.' = components

section Spec

variable (print : δ → List Char) (cache : MacroCache) (q : Query) (d : Data δ)

/-- What a macro stands for. -/
def Query.macroText (name : List Char) : List Char :=
  match macroGetters q.type name with
  | .ok getters => getters.flatMap fun getter => (getter.raw print cache d).getD []
  | .error _ => []

/-- The substitution of a symbol. -/
def Query.plain : Symbol → List Char
  | .char c => [c]
  | .macroOf name => q.macroText print cache d name

/-- What a symbol is to be in the path. -/
def Query.component : Symbol → List Char
  | .char c => [if isBlank c then '_' else c]
  | .macroOf name => (q.macroText print cache d name).flatMap fun c =>
    if c = '.' then q.escape_string else [if isBlank c then '_' else c]

/-- The components that a scheme has, when each macro is in one. -/
def Query.components (scheme : List Char) : List (List Char) :=
  ((symbols scheme).splitOn (.char '.')).map (List.flatMap (q.component print cache d))

/-- The value of a metric, the state of a status. -/
def value : Data δ → List Char
  | .metric me => print me.value
  | .status st => showInt st.state

def time (d : Data δ) : List Char := showInt d.ctime

/-- `generate_metric` or `generate_status`. -/
def Query.generate : Data δ → Except String (List Char)
  | .metric me => q.generateMetric print cache me
  | .status st => q.generateStatus print cache st

end Spec

/-! ## The path -/

section Path

variable {print : δ → List Char} {cache : MacroCache} {q : Query} {d : Data δ}

variable {c : Char}

theorem ne_dot_of_isDigit (h : c.isDigit) : c ≠ '.' := by
  rintro rfl
  exact absurd h (by decide)

theorem not_isBlank_of_isDigit (h : c.isDigit) : isBlank c = false :=
  Decimal.not_space_of_digit h

/-- The getters that macros are compiled to. -/
def Named (getter : Getter) : Prop := getter ≠ .string ∧ getter ≠ .value ∧ getter ≠ .time

variable {s : List Char}

/-- What is not escaped has no dot. -/
theorem ne_dot_of_mem_raw {getter : Getter} (hnamed : Named getter)
    (hescapes : escapes getter = false)
    (hraw : getter.raw print cache d = some s) : ∀ c ∈ s, c ≠ '.' := by
  have hdigits : ∀ {n : ℕ}, ∀ c ∈ Decimal.digits n, c ≠ '.' :=
    fun c hc => ne_dot_of_isDigit (Decimal.isDigit_of_mem_digits hc)
  cases getter with
  | string => cases hraw
  | dollar_sign =>
    cases hraw
    exact List.forall_mem_singleton.mpr (by decide)
  | instance_name => cases hescapes
  | host => cases hescapes
  | service => cases hescapes
  | metric_name => cases hescapes
  | metric_id =>
    cases d with
    | metric me =>
      cases hraw
      exact hdigits
    | status st => cases hraw
  | instance_id =>
    cases d with
    | metric me =>
      cases hraw
      exact hdigits
    | status st =>
      cases hraw
      exact hdigits
  | host_id =>
    cases d with
    | metric me =>
      cases hraw
      exact hdigits
    | status st =>
      obtain ⟨stm, -, hs⟩ := Option.bind_eq_some_iff.mp hraw
      cases hs
      exact hdigits
  | service_id =>
    cases d with
    | metric me =>
      cases hraw
      exact hdigits
    | status st =>
      obtain ⟨stm, -, hs⟩ := Option.bind_eq_some_iff.mp hraw
      cases hs
      exact hdigits
  | index_id =>
    obtain ⟨n, -, hs⟩ := Option.map_eq_some_iff.mp hraw
    cases hs
    exact hdigits
  | value => exact absurd rfl hnamed.2.1
  | time => exact absurd rfl hnamed.2.2

variable {escape_string : List Char}

theorem escape_of_no_dot (h : ∀ c ∈ s, c ≠ '.') :
    escape escape_string s = s := by
  induction s with
  | nil => rfl
  | cons c s ih =>
    obtain ⟨hc, hs⟩ := List.forall_mem_cons.mp h
    rw [escape, List.flatMap_cons, if_neg hc]
    exact congrArg (c :: ·) (ih hs)

/-- Escaped or not, there is no difference. -/
theorem write_raw {getter : Getter} (hnamed : Named getter) :
    write q.escape_string getter ((getter.raw print cache d).getD []) =
      underscores (escape q.escape_string ((getter.raw print cache d).getD [])) := by
  unfold write
  cases hescapes : escapes getter with
  | true => rfl
  | false =>
    cases hraw : getter.raw print cache d with
    | none => rfl
    | some s =>
      rw [if_neg Bool.false_ne_true, Option.getD_some,
        escape_of_no_dot (ne_dot_of_mem_raw hnamed hescapes hraw)]

theorem underscores_append (s t : List Char) :
    underscores (s ++ t) = underscores s ++ underscores t := List.map_append

variable {type : DataType}

theorem named_of_macroGetters {name : List Char} {getters : List Getter}
    (h : macroGetters type name = .ok getters) : ∀ getter ∈ getters, Named getter := by
  unfold macroGetters throwOnInvalid at h
  split_ifs at h <;> cases h <;> simp [Named]

/-- What a macro is compiled to. -/
theorem entries_macroOf (type : DataType) (name : List Char) :
    (compiler type).entries (.macroOf name) = match macroGetters type name with
      | .ok getters => getters.map fun getter => (getter, [])
      | .error _ => [] := by
  unfold Compiler.entries compiler
  dsimp only
  cases macroGetters type name <;> rfl

theorem paired_of_chunk {chunk : Chunk} :
    ∀ e ∈ (compiler type).entries chunk, Paired id e := by
  intro e he
  cases chunk with
  | literal text =>
    rw [List.mem_singleton.mp he]
    exact ⟨text, rfl⟩
  | macroOf name =>
    rw [entries_macroOf] at he
    cases hgetters : macroGetters type name with
    | error e =>
      rw [hgetters] at he
      exact absurd he List.not_mem_nil
    | ok getters =>
      rw [hgetters] at he
      obtain ⟨getter, hmem, rfl⟩ := List.mem_map.mp he
      have hstring : getter ≠ .string := (named_of_macroGetters hgetters getter hmem).1
      rw [Paired, if_neg (show id getter ≠ .string from hstring)]

/-- The substitution of a symbol, dots of names escaped. -/
def Query.escaped (print : δ → List Char) (cache : MacroCache) (q : Query) (d : Data δ) :
    Symbol → List Char
  | .char c => [c]
  | .macroOf name => escape q.escape_string (q.macroText print cache d name)

theorem escape_append (escape_string s t : List Char) :
    escape escape_string (s ++ t) = escape escape_string s ++ escape escape_string t :=
  List.flatMap_append

/-- What the getters of a macro write. -/
theorem flatMap_write {getters : List Getter} (h : ∀ getter ∈ getters, Named getter) :
    (getters.map fun getter => (getter, ([] : List (List Char)))).flatMap
        (fun e => write q.escape_string e.1 (entryText print cache id d e)) =
      underscores (escape q.escape_string
        (getters.flatMap fun getter => (getter.raw print cache d).getD [])) := by
  induction getters with
  | nil => rfl
  | cons getter getters ih =>
    obtain ⟨hgetter, hgetters⟩ := List.forall_mem_cons.mp h
    rw [List.map_cons, List.flatMap_cons, List.flatMap_cons, escape_append, underscores_append,
      entryText, if_neg (show id getter ≠ .string from hgetter.1), ← write_raw hgetter,
      ih hgetters]
    rfl

theorem underscores_flatMap {α : Type} (l : List α) (f : α → List Char) :
    underscores (l.flatMap f) = l.flatMap fun x => underscores (f x) := List.map_flatMap

variable {path : List Char}

/-- **The path** that a compiled scheme writes is the substitution of its symbols. -/
theorem path_of_new {scheme : List Char}
    (hnew : Query.new scheme escape_string type = .ok q)
    (h : q.path print cache d = some path) :
    path = underscores ((symbols scheme).flatMap (q.escaped print cache d)) := by
  cases hcompile : compile (compiler type) scheme with
  | error e =>
    rw [Query.new, hcompile] at hnew
    cases hnew
  | ok compiled =>
    rw [Query.new, hcompile] at hnew
    cases hnew
    rw [compile_eq hcompile] at h
    have hpaired : ∀ e ∈ (chunks scheme).flatMap (compiler type).entries, Paired id e := by
      intro e he
      obtain ⟨chunk, -, hchunk⟩ := List.mem_flatMap.mp he
      exact paired_of_chunk e hchunk
    rw [loop_eq [] hpaired rfl h, List.flatMap_assoc, underscores_flatMap]
    refine flatMap_chunks ?_ ?_ scheme
    · intro text
      show [underscores [text].flatten].flatten = text.flatMap fun c => underscores [c]
      rw [List.flatten_singleton, List.flatten_singleton]
      exact List.map_eq_flatMap
    · intro name
      rw [entries_macroOf, Query.escaped, Query.macroText]
      cases hgetters : macroGetters type name with
      | error e => rfl
      | ok getters => exact flatMap_write (named_of_macroGetters hgetters)

/-! ## The line -/

/-- All blanks are spaces. -/
def SpacesOnly (s : List Char) : Prop := ∀ c ∈ s, isBlank c → c = ' '

/-- An escape string that has no dot and no blank. -/
def Harmless (escape_string : List Char) : Prop :=
  ∀ c ∈ escape_string, c ≠ '.' ∧ isBlank c = false

theorem underscores_of_not_blank (h : ∀ c ∈ s, isBlank c = false) :
    underscores s = s := by
  refine (List.map_congr_left fun c hc => ?_).trans (List.map_id s)
  have hne : c ≠ ' ' := by
    rintro rfl
    exact absurd (h ' ' hc) (by decide)
  exact if_neg hne

variable {x : Symbol}

/-- When all blanks are spaces, a symbol is what it is to be. -/
theorem underscores_escaped (hesc : Harmless q.escape_string)
    (h : SpacesOnly (q.plain print cache d x)) :
    underscores (q.escaped print cache d x) = q.component print cache d x := by
  have hchar : ∀ {c : Char}, (isBlank c → c = ' ') →
      (if c = ' ' then '_' else c) = if isBlank c then '_' else c := by
    intro c hc
    by_cases hspace : c = ' '
    · subst hspace
      rfl
    · rw [if_neg hspace, if_neg fun hb => hspace (hc hb)]
  cases x with
  | char c => exact congrArg (fun c => [c]) (hchar (h c List.mem_cons_self))
  | macroOf name =>
    rw [Query.escaped, Query.component, escape, underscores, List.map_flatMap]
    refine List.flatMap_congr fun c hc => ?_
    split
    · exact underscores_of_not_blank fun c hc => (hesc c hc).2
    · exact congrArg (fun c => [c]) (hchar (h c hc))

/-- What a symbol is to be has no blank. -/
theorem not_isBlank_of_mem_component (hesc : Harmless q.escape_string)
    (h : c ∈ q.component print cache d x) : isBlank c = false := by
  have hchar : ∀ {b : Char}, c ∈ [if isBlank b then '_' else b] → isBlank c = false := by
    intro b hb
    rw [List.mem_singleton.mp hb]
    split
    · decide
    · rename_i hnot
      exact Bool.eq_false_iff.mpr hnot
  cases x with
  | char b => exact hchar h
  | macroOf name =>
    obtain ⟨b, -, hb⟩ := List.mem_flatMap.mp h
    split at hb
    · exact (hesc c hb).2
    · exact hchar hb

/-- Only the dots of the scheme are dots of the path. -/
theorem dot_not_mem_component (hesc : Harmless q.escape_string) (hx : x ≠ .char '.') :
    '.' ∉ q.component print cache d x := by
  have hchar : ∀ {b : Char}, b ≠ '.' → '.' ∉ [if isBlank b then '_' else b] := by
    intro b hb hmem
    have heq := List.mem_singleton.mp hmem
    split at heq
    · exact absurd heq (by decide)
    · exact hb heq.symm
  cases x with
  | char b => exact hchar fun he => hx (he ▸ rfl)
  | macroOf name =>
    intro h
    obtain ⟨b, -, hb⟩ := List.mem_flatMap.mp h
    split at hb
    · exact (hesc '.' hb).1 rfl
    · rename_i hne
      exact hchar hne hb

/-- A blank that is no space stays as it is. -/
theorem mem_escaped (hmem : c ∈ q.plain print cache d x)
    (hblank : isBlank c) :
    c ∈ q.escaped print cache d x := by
  cases x with
  | char b => exact hmem
  | macroOf name =>
    have hne : c ≠ '.' := by
      rintro rfl
      exact absurd hblank (by decide)
    refine List.mem_flatMap.mpr ⟨c, hmem, ?_⟩
    rw [if_neg hne]
    exact List.mem_singleton_self c

theorem not_mem_of_not_blank (h : ∀ c ∈ s, isBlank c = false) {b : Char}
    (hb : isBlank b) : b ∉ s := fun hmem => Bool.false_ne_true ((h b hmem).symm.trans hb)

theorem not_isBlank_of_mem_showInt {n : ℤ} : ∀ c ∈ showInt n, isBlank c = false := by
  intro c hc
  rcases isDigit_of_mem_showInt hc with rfl | hdigit
  · decide
  · exact not_isBlank_of_isDigit hdigit

/-- Fields without blanks are one line. -/
theorem oneLine_of_not_blank {value time : List Char} (hpath : ∀ c ∈ path, isBlank c = false)
    (hvalue : ∀ c ∈ value, isBlank c = false) (htime : ∀ c ∈ time, isBlank c = false) :
    OneLine (path ++ ' ' :: (value ++ ' ' :: (time ++ ['\n']))) (path.splitOn '.') value time := by
  have hline : ∀ c ∈ path ++ ' ' :: (value ++ ' ' :: time), isBlank c → c = ' ' := by
    intro c hc hblank
    have hnot : ∀ s : List Char, (∀ c ∈ s, isBlank c = false) → c ∉ s :=
      fun s hs => not_mem_of_not_blank hs hblank
    simpa [hnot path hpath, hnot value hvalue, hnot time htime] using hc
  refine ⟨path ++ ' ' :: (value ++ ' ' :: time), path, ?_, ?_, hline, rfl⟩
  · have hnewline : '\n' ∉ path ++ ' ' :: (value ++ ' ' :: time) :=
      fun hmem => absurd (hline _ hmem (by decide)) (by decide)
    have htext : path ++ ' ' :: (value ++ ' ' :: (time ++ ['\n'])) =
        (path ++ ' ' :: (value ++ ' ' :: time)) ++ '\n' :: [] := by simp
    rw [htext, List.splitOn_append_cons_self, List.splitOn_eq_singleton hnewline,
      List.splitOn_nil]
    rfl
  · have hspace : ∀ s : List Char, (∀ c ∈ s, isBlank c = false) → s.splitOn ' ' = [s] :=
      fun s hs => List.splitOn_eq_singleton (not_mem_of_not_blank hs (by decide))
    rw [List.splitOn_append_cons_self, List.splitOn_append_cons_self, hspace path hpath,
      hspace value hvalue, hspace time htime]
    rfl

/-- What a line is made of. -/
theorem OneLine.eq {text value time : List Char} {components : List (List Char)}
    (h : OneLine text components value time) :
    text = ['.'].intercalate components ++ ' ' :: (value ++ ' ' :: (time ++ ['\n'])) := by
  obtain ⟨line, path, hlines, hfields, -, hcomponents⟩ := h
  have htext : ['\n'].intercalate (text.splitOn '\n') = text := List.intercalate_splitOn '\n'
  have hline : [' '].intercalate (line.splitOn ' ') = line := List.intercalate_splitOn ' '
  have hpath : ['.'].intercalate (path.splitOn '.') = path := List.intercalate_splitOn '.'
  rw [hlines] at htext
  rw [hfields] at hline
  rw [hcomponents] at hpath
  rw [← htext, ← hline, hpath]
  simp [List.intercalate]

/-- A path is as it is to be, in one line, exactly when all blanks are spaces. -/
theorem oneLine_path_iff (hesc : Harmless q.escape_string) (scheme : List Char)
    {value time : List Char} (hvalue : ∀ c ∈ value, isBlank c = false)
    (htime : ∀ c ∈ time, isBlank c = false) :
    OneLine (underscores ((symbols scheme).flatMap (q.escaped print cache d)) ++
        ' ' :: (value ++ ' ' :: (time ++ ['\n']))) (q.components print cache d scheme) value time ↔
      SpacesOnly ((symbols scheme).flatMap (q.plain print cache d)) := by
  have hdot : q.component print cache d (.char '.') = ['.'] := rfl
  have hcomponents : q.components print cache d scheme =
      ((symbols scheme).flatMap (q.component print cache d)).splitOn '.' :=
    (splitOn_flatMap hdot (fun x hx => dot_not_mem_component hesc hx) _).symm
  have hblank : ∀ c ∈ (symbols scheme).flatMap (q.component print cache d), isBlank c = false := by
    intro c hc
    obtain ⟨x, -, hx⟩ := List.mem_flatMap.mp hc
    exact not_isBlank_of_mem_component hesc hx
  rw [hcomponents]
  constructor
  · intro h c hc hb
    have heq := h.eq
    rw [List.intercalate_splitOn] at heq
    have hpath := List.append_cancel_right heq
    by_contra hne
    obtain ⟨x, hx, hmem⟩ := List.mem_flatMap.mp hc
    have hescaped := List.mem_flatMap.mpr ⟨x, hx, mem_escaped hmem hb⟩
    have hin : c ∈ underscores ((symbols scheme).flatMap (q.escaped print cache d)) :=
      List.mem_map.mpr ⟨c, hescaped, if_neg hne⟩
    rw [hpath] at hin
    exact not_mem_of_not_blank hblank hb hin
  · intro h
    have hpath : underscores ((symbols scheme).flatMap (q.escaped print cache d)) =
        (symbols scheme).flatMap (q.component print cache d) := by
      rw [underscores_flatMap]
      refine List.flatMap_congr fun x hx => underscores_escaped hesc fun c hc hb => ?_
      exact h c (List.mem_flatMap.mpr ⟨x, hx, hc⟩) hb
    rw [hpath]
    exact oneLine_of_not_blank hblank hvalue htime

/-- What is generated when the macros resolve. -/
theorem generate_eq (htype : d.type = q.type)
    (hpath : q.path print cache d = some path) :
    q.generate print cache d =
      .ok (path ++ ' ' :: (value print d ++ ' ' :: (time d ++ ['\n']))) := by
  cases d with
  | metric me =>
    rw [Query.generate, Query.generateMetric, if_neg (fun h => h htype.symm), hpath]
    rfl
  | status st =>
    rw [Query.generate, Query.generateStatus, if_neg (fun h => h htype.symm), hpath]
    rfl

theorem escape_string_of_new {scheme : List Char}
    (hnew : Query.new scheme escape_string type = .ok q) :
    q.escape_string = escape_string ∧ q.type = type := by
  cases hcompile : compile (compiler type) scheme with
  | error e =>
    rw [Query.new, hcompile] at hnew
    cases hnew
  | ok compiled =>
    rw [Query.new, hcompile] at hnew
    cases hnew
    exact ⟨rfl, rfl⟩

/-- **A Graphite line.** When the macros resolve, what is generated is one line of three fields with
the components of the naming scheme, dots replaced by the escape string and blanks by underscores,
if and only if the substituted scheme has no other blanks than spaces. -/
theorem generate_oneLine_iff {scheme escape_string : List Char} {type : DataType}
    (hnew : Query.new scheme escape_string type = .ok q) (hesc : Harmless escape_string)
    (hprint : ∀ x, ∀ c ∈ print x, isBlank c = false)
    (htype : d.type = type) {path : List Char}
    (hpath : q.path print cache d = some path) :
    ∃ text, q.generate print cache d = .ok text ∧
      (OneLine text (q.components print cache d scheme) (value print d) (time d) ↔
        SpacesOnly ((symbols scheme).flatMap (q.plain print cache d))) := by
  obtain ⟨hescape, hq⟩ := escape_string_of_new hnew
  have hvalue : ∀ c ∈ value print d, isBlank c = false := by
    cases d with
    | metric me => exact hprint me.value
    | status st => exact not_isBlank_of_mem_showInt
  have htime : ∀ c ∈ time d, isBlank c = false := by
    cases d with
    | metric me => exact not_isBlank_of_mem_showInt
    | status st => exact not_isBlank_of_mem_showInt
  refine ⟨_, generate_eq (htype.trans hq.symm) hpath, ?_⟩
  rw [path_of_new hnew hpath]
  exact oneLine_path_iff (hescape ▸ hesc) scheme hvalue htime

end Path

/-! ## A name with a tab -/

/-- The query of a scheme with the host and the metric in it. -/
def hostQuery : Query where
  escape_string := ['_']
  type := .metric
  compiled_naming_scheme := [['c', '.'], ['.']]
  compiled_getters := [.string, .host, .string, .metric_name]

theorem generate_oneLine_iff_loadOne :
    ∃ text, hostQuery.generate Decimal.digits (oneHost ['s', 'r', 'v']) (.metric loadOne) =
        .ok text ∧
      (OneLine text (hostQuery.components Decimal.digits (oneHost ['s', 'r', 'v']) (.metric loadOne)
          "c.$HOST$.$METRIC$".toList) ['5'] ['7'] ↔
        SpacesOnly ((symbols "c.$HOST$.$METRIC$".toList).flatMap
          (hostQuery.plain Decimal.digits (oneHost ['s', 'r', 'v']) (.metric loadOne)))) :=
  generate_oneLine_iff (by rfl) (List.forall_mem_singleton.mpr (by decide))
    (fun _ _ hc => not_isBlank_of_isDigit (Decimal.isDigit_of_mem_digits hc)) rfl rfl

/-- A tab stays in the path. -/
theorem not_generate_oneLine : ¬ ∀ (cache : MacroCache) (scheme escape_string : List Char)
    (type : DataType) (q : Query) (d : Data ℕ) (path text : List Char),
    Query.new scheme escape_string type = .ok q → Harmless escape_string → d.type = type →
      q.path Decimal.digits cache d = some path →
        q.generate Decimal.digits cache d = .ok text →
          OneLine text (q.components Decimal.digits cache d scheme) (value Decimal.digits d)
            (time d) := by
  intro h
  have hline := h (oneHost ['a', '\t', 'b']) "c.$HOST$.$METRIC$".toList ['_'] .metric hostQuery
    (.metric loadOne) _ _ (by rfl) (List.forall_mem_singleton.mpr (by decide)) rfl rfl rfl
  obtain ⟨line, path, hlines, -, hblank, -⟩ := hline
  have hfirst : line = "c.a\tb.l 5 7".toList :=
    (List.cons.inj (hlines.symm.trans (by rfl : _ = ["c.a\tb.l 5 7".toList, []]))).1
  exact absurd (hblank '\t' (by rw [hfirst]; decide) (by decide)) (by decide)

end CentreonBroker.Graphite
