import CentreonBroker.Lib.Decimal
import Mathlib.Data.List.Basic

/-!
# The getters of queries

The queries of the Graphite and of the InfluxDB streams are compiled to getters, which write what a
macro stands for, for a metric or for a status. Names come from a cache, and what the cache does not
have is an error.
-/

namespace CentreonBroker.Queries

/-- What a query is for. -/
inductive DataType where
  | metric
  | status
  deriving DecidableEq, Repr

/-- `storage::metric`, as far as a query reads it, with a value of a type `δ`. -/
structure Metric (δ : Type) where
  source_id : ℕ
  metric_id : ℕ
  name : List Char
  ctime : ℤ
  value : δ
  host_id : ℕ
  service_id : ℕ

/-- `storage::status`, as far as a query reads it. -/
structure Status where
  source_id : ℕ
  index_id : ℕ
  ctime : ℤ
  state : ℤ

/-- What a query is generated for. -/
inductive Data (δ : Type) where
  | metric (me : Metric δ)
  | status (st : Status)

/-- `storage::index_mapping`. -/
structure IndexMapping where
  host_id : ℕ
  service_id : ℕ

/-- `macro_cache`: what the getters find in it. Where they find nothing they throw. -/
structure MacroCache where
  get_index_mapping : ℕ → Option IndexMapping
  /-- The index of a metric. -/
  get_metric_mapping : ℕ → Option ℕ
  get_host_name : ℕ → Option (List Char)
  get_service_description : ℕ → ℕ → Option (List Char)
  get_instance : ℕ → Option (List Char)

/-- The getters, by what they write. -/
inductive Getter where
  | string
  | dollar_sign
  | metric_id
  | instance_name
  | instance_id
  | host
  | host_id
  | service
  | service_id
  | metric_name
  | index_id
  | value
  | time
  deriving DecidableEq, Repr

/-- An integer in an output stream. -/
def showInt (n : ℤ) : List Char :=
  if n < 0 then '-' :: Decimal.digits n.natAbs else Decimal.digits n.natAbs

def Data.type {δ : Type} : Data δ → DataType
  | .metric _ => .metric
  | .status _ => .status

def Data.ctime {δ : Type} : Data δ → ℤ
  | .metric me => me.ctime
  | .status st => st.ctime

section Raw

variable {δ : Type} (print : δ → List Char) (cache : MacroCache)

/-- `_get_index_id`. -/
def getIndexId : Data δ → Option ℕ
  | .status st => some st.index_id
  | .metric me => cache.get_metric_mapping me.metric_id

/-- What a getter has for the data, before anything is escaped, where `print` writes a value. -/
def Getter.raw (d : Data δ) : Getter → Option (List Char)
  -- not reached: a string is taken from the scheme
  | .string => none
  | .dollar_sign => some ['$']
  | .metric_id =>
    match d with
    | .metric me => some (Decimal.digits me.metric_id)
    | .status _ => none
  | .instance_name =>
    match d with
    | .metric me => cache.get_instance me.source_id
    | .status st => cache.get_instance st.source_id
  | .instance_id =>
    match d with
    | .metric me => some (Decimal.digits me.source_id)
    | .status st => some (Decimal.digits st.source_id)
  | .host =>
    match d with
    | .metric me => cache.get_host_name me.host_id
    | .status st => do cache.get_host_name (← cache.get_index_mapping st.index_id).host_id
  | .host_id =>
    match d with
    | .metric me => some (Decimal.digits me.host_id)
    | .status st => do some (Decimal.digits (← cache.get_index_mapping st.index_id).host_id)
  | .service =>
    match d with
    | .metric me => cache.get_service_description me.host_id me.service_id
    | .status st => do
      let stm ← cache.get_index_mapping st.index_id
      cache.get_service_description stm.host_id stm.service_id
  | .service_id =>
    match d with
    | .metric me => some (Decimal.digits me.service_id)
    | .status st => do some (Decimal.digits (← cache.get_index_mapping st.index_id).service_id)
  | .metric_name =>
    match d with
    | .metric me => some me.name
    | .status _ => none
  | .index_id => (getIndexId cache d).map Decimal.digits
  | .value =>
    match d with
    | .metric me => some (print me.value)
    | .status st => some (showInt st.state)
  | .time =>
    match d with
    | .metric me => some (showInt me.ctime)
    | .status st => some (showInt st.ctime)

/-! ## The loop over the getters -/

section Loop

variable {κ : Type} (getter : κ → Getter) (write : κ → List Char → List Char)

/-- What was compiled is written in its order, with the index of the next string of the scheme;
`write` is what becomes of what a getter writes. None when a getter throws. -/
def loop (strings : List (List Char)) (d : Data δ) : ℕ → List κ → Option (List Char)
  | _, [] => some []
  | i, e :: es =>
    if getter e = .string then do
      -- not reached: there is a string for each of these getters
      let s ← strings[i]?
      return write e s ++ (← loop strings d (i + 1) es)
    else do
      let s ← (getter e).raw print cache d
      return write e s ++ (← loop strings d i es)

/-- What was compiled has a string when its getter is the one for strings. -/
def Paired (e : κ × List (List Char)) : Prop :=
  if getter e.1 = .string then ∃ s, e.2 = [s] else e.2 = []

/-- What the getter of an entry writes. -/
def entryText (d : Data δ) (e : κ × List (List Char)) : List Char :=
  if getter e.1 = .string then e.2.flatten else ((getter e.1).raw print cache d).getD []

variable {print cache getter write}

/-- The index of the strings is always at the next one. -/
theorem loop_eq {d : Data δ} {strings : List (List Char)} (pre : List (κ × List (List Char)))
    {es : List (κ × List (List Char))}
    (hpaired : ∀ e ∈ es, Paired getter e) (hstrings : strings = (pre ++ es).flatMap Prod.snd)
    {text : List Char}
    (h : loop print cache getter write strings d (pre.flatMap Prod.snd).length (es.map Prod.fst) =
      some text) :
    text = es.flatMap fun e => write e.1 (entryText print cache getter d e) := by
  induction es generalizing pre text with
  | nil =>
    cases h
    rfl
  | cons e es ih =>
    obtain ⟨hpair, hrest⟩ := List.forall_mem_cons.mp hpaired
    have hstrings' : strings = ((pre ++ [e]) ++ es).flatMap Prod.snd := by
      rw [hstrings, List.append_assoc]
      rfl
    rw [List.map_cons, loop] at h
    rw [List.flatMap_cons]
    by_cases hgetter : getter e.1 = .string
    · rw [if_pos hgetter] at h
      rw [Paired, if_pos hgetter] at hpair
      obtain ⟨s, hs⟩ := hpair
      obtain ⟨t, ht, h⟩ := Option.bind_eq_some_iff.mp h
      obtain ⟨rest, hloop, h⟩ := Option.bind_eq_some_iff.mp h
      cases h
      have hlength : (pre.flatMap Prod.snd).length + 1 =
          ((pre ++ [e]).flatMap Prod.snd).length := by simp [hs]
      have hnext : t = s := by
        rw [hstrings] at ht
        simpa [hs] using ht.symm
      rw [hlength] at hloop
      rw [ih (pre ++ [e]) hrest hstrings' hloop, hnext, entryText, if_pos hgetter, hs]
      simp
    · rw [if_neg hgetter] at h
      rw [Paired, if_neg hgetter] at hpair
      obtain ⟨s, hs, h⟩ := Option.bind_eq_some_iff.mp h
      obtain ⟨rest, hloop, h⟩ := Option.bind_eq_some_iff.mp h
      cases h
      have hlength : (pre.flatMap Prod.snd).length =
          ((pre ++ [e]).flatMap Prod.snd).length := by simp [hpair]
      rw [hlength] at hloop
      rw [ih (pre ++ [e]) hrest hstrings' hloop, entryText, if_neg hgetter, hs, Option.getD_some]

end Loop

end Raw

theorem isDigit_of_mem_showInt {n : ℤ} {c : Char} (h : c ∈ showInt n) :
    c = '-' ∨ c.isDigit := by
  unfold showInt at h
  split at h
  · exact (List.mem_cons.mp h).imp_right Decimal.isDigit_of_mem_digits
  · exact .inr (Decimal.isDigit_of_mem_digits h)

/-! ## A host with a metric -/

/-- A cache with one host. -/
def oneHost (name : List Char) : MacroCache where
  get_index_mapping _ := none
  get_metric_mapping _ := none
  get_host_name id := if id = 1 then some name else none
  get_service_description _ _ := none
  get_instance _ := none

/-- A metric of the host, with an integer for a value. -/
def loadOne : Metric ℕ :=
  { source_id := 1, metric_id := 1, name := ['l'], ctime := 7, value := 5, host_id := 1,
    service_id := 0 }

end CentreonBroker.Queries
