import Mathlib.Algebra.Group.Nat.Defs
import Mathlib.Data.List.TakeWhile
import Mathlib.Data.Nat.Notation
import Mathlib.Data.Rat.Defs

/-!
# The values that are bound to a position of a statement

`mysql_bind` has a `MYSQL_BIND` and a `mysql_column` for each position. The first call for a
position gives it its type; the type then stays, and a value is written to the buffer of the column.
A failed `assert` is a failure.
-/

namespace CentreonBroker.Database

/-- A `float` or a `double`. -/
inductive Floating where
  | finite (q : ℚ)
  | infinite (negative : Bool)
  | nan
  deriving DecidableEq

def Floating.isFinite : Floating → Bool
  | finite _ => true
  | _ => false

/-- `enum_field_types`; a `MYSQL_BIND` of zeros is a decimal. -/
inductive FieldType where
  | decimal
  | tiny
  | long
  | longlong
  | float
  | double
  | string
  | null
  deriving DecidableEq, Repr

/-- What is at the address that a column has as its vector. A string stands without its end. -/
inductive Buffer where
  | word (bits : BitVec 64)
  | float (v : Floating)
  | double (v : Floating)
  | string (s : List Char)
  deriving DecidableEq

/-- A position: its `MYSQL_BIND`, its `mysql_column` and its entry in `_typed`. -/
structure Position where
  typed : Bool
  bufferType : FieldType
  isUnsigned : Bool
  /-- The pointers `is_null` and `length` lead to the column. -/
  bound : Bool
  /-- The pointer `buffer` does. -/
  buffered : Bool
  columnType : FieldType
  vector : Option Buffer
  strSize : ℕ
  isNull : Bool
  length : ℕ
  deriving DecidableEq

/-- The constructor of `mysql_bind`, for one position. -/
def Position.new (length : ℕ) : Position :=
  if length ≠ 0 then
    { typed := false, bufferType := .string, isUnsigned := false, bound := true, buffered := true
      columnType := .string, vector := some (.string []), strSize := length, isNull := false
      length := 0 }
  else
    { typed := false, bufferType := .decimal, isUnsigned := false, bound := false, buffered := false
      columnType := .long, vector := none, strSize := 0, isNull := false, length := 0 }

namespace Position

/-- What `calloc` gives for a type. -/
def zeros : FieldType → Option Buffer
  | .decimal => none
  | .tiny | .long | .longlong | .null => some (.word 0)
  | .float => some (.float (.finite 0))
  | .double => some (.double (.finite 0))
  | .string => some (.string [])

/-- `mysql_column::set_type`. -/
def setType (p : Position) (type : FieldType) : Option Position :=
  if p.vector ≠ none then none
  else (zeros type).map fun b => { p with columnType := type, vector := some b }

/-- `_prepare_type`, for a position that is not `_prepared`. -/
def prepare (p : Position) (type : FieldType) : Option Position :=
  if p.typed then some p else setType { p with typed := true, bufferType := type } type

/-- The end of the functions that write a value. -/
def write (p : Position) (b : Buffer) : Position :=
  { p with vector := some b, buffered := true, bound := true }

def setValueAsTiny (p : Position) (value : BitVec 8) : Option Position :=
  (p.prepare .tiny).map fun p => p.write (.word (value.setWidth 64))

def setValueAsBool (p : Position) (value : Bool) : Option Position :=
  p.setValueAsTiny (if value then 1 else 0)

def setValueAsI32 (p : Position) (value : BitVec 32) : Option Position :=
  (p.prepare .long).map fun p =>
    { p with isUnsigned := false }.write (.word (value.setWidth 64))

def setValueAsU32 (p : Position) (value : BitVec 32) : Option Position :=
  (p.prepare .long).map fun p =>
    { p with isUnsigned := true }.write (.word (value.setWidth 64))

def setValueAsU64 (p : Position) (value : BitVec 64) : Option Position :=
  (p.prepare .longlong).map fun p => { p with isUnsigned := true }.write (.word value)

def setValueAsNull (p : Position) : Option Position :=
  (p.prepare .null).map fun p => { p with bound := true }

def setValueAsF32 (p : Position) (value : Floating) : Option Position :=
  if ¬ value.isFinite then p.setValueAsNull
  else (p.prepare .float).map fun p => { p with isNull := ¬ value.isFinite }.write (.float value)

def setValueAsF64 (p : Position) (value : Floating) : Option Position :=
  if ¬ value.isFinite then p.setValueAsNull
  else (p.prepare .double).map fun p => { p with isNull := ¬ value.isFinite }.write (.double value)

def nul : Char := Char.ofNat 0

/-- `strncpy`: what is behind the end of the source is filled with zeros. -/
def strncpy (s : List Char) : List Char :=
  let chars := s.takeWhile (· ≠ nul)
  chars ++ List.replicate (s.length - chars.length) nul

/-- `mysql_column::set_value`, for a string. -/
def setString (p : Position) (s : List Char) : Option Position :=
  if p.columnType ≠ .string then none
  else
    some { p with
      strSize := if s.length ≥ p.strSize then s.length + 1 else p.strSize
      length := s.length
      vector := some (.string (strncpy s)) }

def setValueAsStr (p : Position) (value : List Char) : Option Position := do
  let p ← p.prepare .string
  let p ← p.setString value
  return { p with buffered := true, bound := true }

/-- `strtol`, `strtoul`, `strtof` and `strtod`. -/
structure Conversions where
  strtol : List Char → BitVec 32
  strtoul : List Char → BitVec 64
  strtof : List Char → Floating
  strtod : List Char → Floating

variable (conv : Conversions)

/-- The string that begins where the buffer does. -/
def cString (p : Position) : Option (List Char) :=
  match p.vector with
  | some (.string s) => some (s.takeWhile (· ≠ nul))
  | _ => none

/-- The word that the buffer begins with, as it is read there. -/
def readWord (p : Position) (n : ℕ) : Option (BitVec n) :=
  match p.vector with
  | some (.word bits) => some (bits.setWidth n)
  | _ => none

def valueAsStr (p : Position) : Option (List Char) :=
  if p.bufferType = .string then p.cString else none

def valueAsBool (p : Position) : Option Bool :=
  if p.bufferType = .tiny then (p.readWord 8).map (· ≠ 0) else none

def valueAsI32 (p : Position) : Option (BitVec 32) :=
  if p.bufferType = .long then p.readWord 32
  else if p.bufferType = .string then p.cString.map conv.strtol
  else none

def valueAsU32 (p : Position) : Option (BitVec 32) :=
  if p.bufferType = .long then p.readWord 32
  else if p.bufferType = .string then p.cString.map fun s => (conv.strtoul s).setWidth 32
  else none

/-- The buffer is read as that of an `uint32_t`. -/
def valueAsU64 (p : Position) : Option (BitVec 64) :=
  if p.bufferType = .longlong then (p.readWord 32).map (·.setWidth 64)
  else if p.bufferType = .string then p.cString.map conv.strtoul
  else none

def valueAsF32 (p : Position) : Option Floating :=
  if p.bufferType = .float then
    match p.vector with
    | some (.float v) => some v
    | _ => none
  else if p.bufferType = .string then p.cString.map conv.strtof
  else none

def valueAsF64 (p : Position) : Option Floating :=
  if p.bufferType = .double then
    match p.vector with
    | some (.double v) => some v
    | _ => none
  else if p.bufferType = .string then p.cString.map conv.strtod
  else none

def valueIsNull (p : Position) : Bool := p.isNull || p.bufferType = .null

/-! ## What is sent -/

/-- A parameter as the server gets it. -/
inductive Sent where
  | null
  | tiny (v : BitVec 8)
  | long (isUnsigned : Bool) (v : BitVec 32)
  | longlong (isUnsigned : Bool) (v : BitVec 64)
  | float (v : Floating)
  | double (v : Floating)
  | string (s : List Char)
  deriving DecidableEq

/-- The value that the buffer has for the type. -/
def sentValue (p : Position) : Option Sent :=
  match p.bufferType, p.vector with
  | .tiny, some (.word bits) => some (.tiny (bits.setWidth 8))
  | .long, some (.word bits) => some (.long p.isUnsigned (bits.setWidth 32))
  | .longlong, some (.word bits) => some (.longlong p.isUnsigned bits)
  | .float, some (.float v) => some (.float v)
  | .double, some (.double v) => some (.double v)
  | .string, some (.string s) => some (.string (s.take p.length))
  | _, _ => none

/-- What the client library makes of the position. -/
def sent (p : Position) : Option Sent :=
  if p.bufferType = .null ∨ (p.bound ∧ p.isNull) then some .null
  else if ¬ p.buffered then none
  else p.sentValue

end Position

/-- A call for a position. -/
inductive Call where
  | bool (value : Bool)
  | tiny (value : BitVec 8)
  | i32 (value : BitVec 32)
  | u32 (value : BitVec 32)
  | u64 (value : BitVec 64)
  | f32 (value : Floating)
  | f64 (value : Floating)
  | str (value : List Char)
  | null
  deriving DecidableEq

namespace Call

def exec (p : Position) : Call → Option Position
  | bool value => p.setValueAsBool value
  | tiny value => p.setValueAsTiny value
  | i32 value => p.setValueAsI32 value
  | u32 value => p.setValueAsU32 value
  | u64 value => p.setValueAsU64 value
  | f32 value => p.setValueAsF32 value
  | f64 value => p.setValueAsF64 value
  | str value => p.setValueAsStr value
  | null => p.setValueAsNull

/-- What a call is about, by itself. -/
def sends : Call → Position.Sent
  | bool value => .tiny (if value then 1 else 0)
  | tiny value => .tiny value
  | i32 value => .long false value
  | u32 value => .long true value
  | u64 value => .longlong true value
  | f32 value => if value.isFinite then .float value else .null
  | f64 value => if value.isFinite then .double value else .null
  | str value => .string value
  | null => .null

/-- A null, or a value that is none. -/
def isNull (c : Call) : Bool := c.sends = .null

/-- The type of its value. -/
def fieldType (c : Call) : FieldType :=
  match c.sends with
  | .null => .null
  | .tiny _ => .tiny
  | .long _ _ => .long
  | .longlong _ _ => .longlong
  | .float _ => .float
  | .double _ => .double
  | .string _ => .string

/-- The function that reads its value returns it. -/
def ReadBack (conv : Position.Conversions) (p : Position) (c : Call) : Prop :=
  match c with
  | bool value => p.valueAsBool = some value
  | tiny value => p.valueAsBool = some (decide (value ≠ 0))
  | i32 value => p.valueAsI32 conv = some value
  | u32 value => p.valueAsU32 conv = some value
  | u64 value => p.valueAsU64 conv = some value
  | f32 value => value.isFinite → p.valueAsF32 conv = some value
  | f64 value => value.isFinite → p.valueAsF64 conv = some value
  | str value => p.valueAsStr = some value
  | null => True

/-- The value is one that is held and read in full. -/
def Whole : Call → Prop
  | u64 value => value.toNat < 2 ^ 32
  | str value => Position.nul ∉ value
  | _ => True

end Call

/-- The position is what one call alone says. -/
def Position.Holds (conv : Conversions) (p : Position) (c : Call) : Prop :=
  p.sent = some c.sends ∧ p.valueIsNull = c.isNull ∧ c.ReadBack conv p

/-- The values are all of one type. -/
def OneType (cs : List Call) : Prop := ∃ t, ∀ c ∈ cs, c.isNull ∨ c.fieldType = t

/-! ## What a position holds in a run -/

namespace Position

open Call

/-- A position that has a type, which is not the one of nulls. -/
structure Typed (t : FieldType) (p : Position) : Prop where
  typed : p.typed = true
  bufferType : p.bufferType = t
  columnType : p.columnType = t
  isNull : p.isNull = false

variable {p : Position}

theorem prepare_of_typed (h : p.typed = true) (t : FieldType) :
    p.prepare t = some p := if_pos h

variable {t : FieldType}

theorem typed_of_prepare {q : Position} (h : p.prepare t = some q) :
    q.typed = true := by
  unfold prepare setType at h
  split at h
  · cases h
    assumption
  · split at h
    · cases h
    · obtain ⟨b, -, rfl⟩ := Option.map_eq_some_iff.mp h
      rfl

theorem prepare_prepare {β : Type} (p : Position) (t : FieldType) (f : Position → Option β) :
    ((p.prepare t).bind fun q => (q.prepare t).bind f) = (p.prepare t).bind f := by
  cases h : p.prepare t with
  | none => rfl
  | some q => exact congrArg (Option.bind · f) (prepare_of_typed (typed_of_prepare h) t)

variable {c : Call}

theorem fieldType_of_isNull (h : c.isNull = true) : c.fieldType = .null := by
  have hsends : c.sends = .null := of_decide_eq_true h
  rw [fieldType, hsends]

/-- A call first gives the position its type. -/
theorem exec_eq (p : Position) (c : Call) :
    c.exec p = (p.prepare c.fieldType).bind c.exec := by
  have hnull : p.setValueAsNull = (p.prepare .null).bind setValueAsNull := by
    have hexec : setValueAsNull =
        fun q : Position => (q.prepare .null).bind fun q => some { q with bound := true } :=
      funext fun q => Option.map_eq_bind
    rw [hexec]
    exact (prepare_prepare p .null _).symm
  cases c with
  | null => exact hnull
  | f32 value =>
    cases value with
    | finite q =>
      show setValueAsF32 p _ = (p.prepare .float).bind fun q => setValueAsF32 q _
      simp [setValueAsF32, Option.map_eq_bind, prepare_prepare, Floating.isFinite]
    | _ => exact hnull
  | f64 value =>
    cases value with
    | finite q =>
      show setValueAsF64 p _ = (p.prepare .double).bind fun q => setValueAsF64 q _
      simp [setValueAsF64, Option.map_eq_bind, prepare_prepare, Floating.isFinite]
    | _ => exact hnull
  | str value => exact (prepare_prepare p .string _).symm
  | _ =>
    simp only [Call.exec, setValueAsBool, setValueAsTiny, setValueAsI32, setValueAsU32,
      setValueAsU64, Option.map_eq_bind, fieldType, sends, prepare_prepare]

theorem takeWhile_of_not_mem {s : List Char} (h : nul ∉ s) : s.takeWhile (· ≠ nul) = s :=
  List.takeWhile_eq_self_iff.mpr fun _ hc => decide_eq_true fun he => h (he ▸ hc)

theorem strncpy_of_not_mem {s : List Char} (h : nul ∉ s) : strncpy s = s := by
  rw [strncpy, takeWhile_of_not_mem h, Nat.sub_self]
  exact List.append_nil s

theorem length_strncpy (s : List Char) : (strncpy s).length = s.length := by
  have hle := (List.takeWhile_prefix (l := s) (· ≠ nul)).length_le
  simp only [strncpy, List.length_append, List.length_replicate]
  omega

/-- What is copied is read back up to the first zero. -/
theorem takeWhile_strncpy (s : List Char) :
    (strncpy s).takeWhile (· ≠ nul) = s.takeWhile (· ≠ nul) := by
  have hchars : ∀ c ∈ s.takeWhile (· ≠ nul), decide (c ≠ nul) = true := fun _ hc =>
    List.mem_takeWhile_imp (p := fun c => decide (c ≠ nul)) hc
  rw [strncpy, List.takeWhile_append_of_pos hchars, List.takeWhile_replicate]
  simp

theorem fieldType_ne_null (h : c.isNull = false) : c.fieldType ≠ .null := by
  have hsends : c.sends ≠ .null := of_decide_eq_false h
  unfold fieldType
  cases hc : c.sends with
  | null => exact absurd hc hsends
  | _ => simp

theorem Typed.sent_eq (h : p.Typed t) (ht : t ≠ .null) :
    p.sent = if ¬ p.buffered then none else p.sentValue :=
  if_neg (by simp [h.bufferType, h.isNull, ht])

theorem Typed.valueIsNull (h : p.Typed t) (ht : t ≠ .null) :
    p.valueIsNull = false := by
  simp [Position.valueIsNull, h.bufferType, h.isNull, ht]

theorem Typed.holds_iff (h : p.Typed c.fieldType)
    (hc : c.isNull = false) (hbuffered : p.buffered = true) (conv : Conversions) :
    p.Holds conv c ↔ p.sentValue = some c.sends ∧ c.ReadBack conv p := by
  have ht := fieldType_ne_null hc
  rw [Holds, h.sent_eq ht, h.valueIsNull ht, hc, if_neg (not_not.mpr hbuffered)]
  simp

theorem Typed.wrote {p' : Position} {conv : Conversions} (h : p'.Typed c.fieldType)
    (hexec : c.exec p = some p') (hc : c.isNull = false) (hbuffered : p'.buffered = true)
    (hiff : p'.sentValue = some c.sends ∧ c.ReadBack conv p' ↔ c.Whole) :
    ∃ p', c.exec p = some p' ∧ p'.Typed c.fieldType ∧ (p'.Holds conv c ↔ c.Whole) :=
  ⟨p', hexec, h, (h.holds_iff hc hbuffered conv).trans hiff⟩

/-- A value of the type is written, and sent and read back in exactly these cases. -/
theorem Typed.value (h : p.Typed c.fieldType) (hc : c.isNull = false)
    (conv : Conversions) :
    ∃ p', c.exec p = some p' ∧ p'.Typed c.fieldType ∧ (p'.Holds conv c ↔ c.Whole) := by
  obtain ⟨htyped, hbuffer, hcolumn, hnull⟩ := h
  have hprepare := prepare_of_typed htyped
  have hmap (t : FieldType) (f : Position → Position) : (p.prepare t).map f = some (f p) := by
    rw [hprepare]
    rfl
  have hwritten (u n : Bool) (b : Buffer) (hn : n = false) :
      ({ p with isUnsigned := u, isNull := n }.write b).Typed c.fieldType :=
    ⟨htyped, hbuffer, hcolumn, hn⟩
  cases c with
  | null => cases hc
  | bool value =>
    let bit : BitVec 8 := if value then 1 else 0
    refine (hwritten p.isUnsigned _ (.word (bit.setWidth 64)) hnull).wrote
      (hmap .tiny _) hc rfl (iff_of_true ⟨?_, ?_⟩ trivial)
    · simp [sentValue, write, hbuffer, fieldType, sends, bit]
    · cases value <;>
        simp [Call.ReadBack, valueAsBool, readWord, write, hbuffer, fieldType, sends, bit]
  | tiny value =>
    refine (hwritten p.isUnsigned _ (.word (value.setWidth 64)) hnull).wrote
      (hmap .tiny _) hc rfl (iff_of_true ⟨?_, ?_⟩ trivial)
    · simp [sentValue, write, hbuffer, fieldType, sends]
    · simp [Call.ReadBack, valueAsBool, readWord, write, hbuffer, fieldType, sends]
  | i32 value =>
    refine (hwritten false _ (.word (value.setWidth 64)) hnull).wrote
      (hmap .long _) hc rfl (iff_of_true ⟨?_, ?_⟩ trivial)
    · simp [sentValue, write, hbuffer, fieldType, sends]
    · simp [Call.ReadBack, valueAsI32, readWord, write, hbuffer, fieldType, sends]
  | u32 value =>
    refine (hwritten true _ (.word (value.setWidth 64)) hnull).wrote
      (hmap .long _) hc rfl (iff_of_true ⟨?_, ?_⟩ trivial)
    · simp [sentValue, write, hbuffer, fieldType, sends]
    · simp [Call.ReadBack, valueAsU32, readWord, write, hbuffer, fieldType, sends]
  | u64 value =>
    refine (hwritten true _ (.word value) hnull).wrote (hmap .longlong _) hc rfl ?_
    have hread : (value.setWidth 32).setWidth 64 = value ↔ value.toNat < 2 ^ 32 := by
      rw [← BitVec.toNat_inj, BitVec.toNat_setWidth, BitVec.toNat_setWidth]
      omega
    simp [sentValue, Call.ReadBack, valueAsU64, readWord, write, hbuffer, fieldType,
      sends, Call.Whole, hread]
  | f32 value =>
    cases value with
    | finite q =>
      refine (hwritten p.isUnsigned _ (.float (.finite q)) rfl).wrote (hmap .float _) hc rfl
        (iff_of_true ⟨?_, fun _ => ?_⟩ trivial)
      · simp [sentValue, write, hbuffer, fieldType, sends, Floating.isFinite]
      · simp [valueAsF32, write, hbuffer, fieldType, sends, Floating.isFinite]
    | _ => cases hc
  | f64 value =>
    cases value with
    | finite q =>
      refine (hwritten p.isUnsigned _ (.double (.finite q)) rfl).wrote (hmap .double _) hc rfl
        (iff_of_true ⟨?_, fun _ => ?_⟩ trivial)
      · simp [sentValue, write, hbuffer, fieldType, sends, Floating.isFinite]
      · simp [valueAsF64, write, hbuffer, fieldType, sends, Floating.isFinite]
    | _ => cases hc
  | str value =>
    have hstring : p.columnType = .string := hcolumn
    let q : Position := { p with
      strSize := if value.length ≥ p.strSize then value.length + 1 else p.strSize
      length := value.length
      vector := some (.string (strncpy value))
      buffered := true
      bound := true }
    have hq : q.Typed (fieldType (.str value)) := ⟨htyped, hbuffer, hcolumn, hnull⟩
    have hexec : Call.exec p (.str value) = some q := by
      show ((p.prepare .string).bind fun p => (p.setString value).bind _) = _
      rw [hprepare, Option.bind_some, setString, if_neg (not_not.mpr hstring)]
      rfl
    refine hq.wrote hexec hc rfl ?_
    have hsent : q.sentValue = some (.string (strncpy value)) := by
      rw [sentValue, hq.bufferType]
      show some (Sent.string ((strncpy value).take value.length)) = _
      rw [List.take_of_length_le (Nat.le_of_eq (length_strncpy value))]
    have hread : q.valueAsStr = some (value.takeWhile (· ≠ nul)) :=
      (if_pos hq.bufferType).trans (congrArg some (takeWhile_strncpy value))
    rw [hsent, Call.ReadBack, hread]
    constructor
    · rintro ⟨-, h⟩ hmem
      simpa using List.takeWhile_eq_self_iff.mp (Option.some.inj h) nul hmem
    · intro h
      have hcopy := strncpy_of_not_mem h
      rw [hcopy, takeWhile_of_not_mem h]
      exact ⟨rfl, rfl⟩

theorem exec_null (hp : p.typed = true) (hc : c.isNull = true) :
    c.exec p = some { p with bound := true } := by
  rw [exec_eq, fieldType_of_isNull hc, prepare_of_typed hp]
  have hnull : p.setValueAsNull = some { p with bound := true } := by
    rw [setValueAsNull, prepare_of_typed hp]
    rfl
  cases c with
  | null => exact hnull
  | f32 value | f64 value =>
    cases value with
    | finite => cases hc
    | _ => exact hnull
  | _ => cases hc

/-- **A null leaves a type as it is**, so that the value is still sent. -/
theorem Typed.null (h : p.Typed t) (ht : t ≠ .null)
    (hc : c.isNull = true) (conv : Conversions) :
    ∃ p', c.exec p = some p' ∧ p'.Typed t ∧ ¬ p'.Holds conv c := by
  have hbound : Position.Typed t { p with bound := true } := ⟨h.1, h.2, h.3, h.4⟩
  refine ⟨_, exec_null h.typed hc, hbound, fun hholds => ?_⟩
  have hvalue := hholds.2.1
  rw [hbound.valueIsNull ht, hc] at hvalue
  cases hvalue

theorem Typed.exec {p' : Position} (h : p.Typed t)
    (hexec : c.exec p = some p') : p'.Typed t := by
  obtain ⟨htyped, hbuffer, hcolumn, hnull⟩ := h
  have hprepare := prepare_of_typed htyped
  cases c with
  | str value =>
    have hset : (p.setString value).bind
        (fun p => some { p with buffered := true, bound := true }) = some p' := by
      rw [← hexec]
      show _ = (p.prepare .string).bind fun p => (p.setString value).bind _
      rw [hprepare]
      rfl
    unfold setString at hset
    split at hset
    · cases hset
    · cases hset
      exact ⟨htyped, hbuffer, hcolumn, hnull⟩
  | f32 value | f64 value =>
    cases value <;>
      simp only [Call.exec, setValueAsF32, setValueAsF64, setValueAsNull, hprepare,
        Option.map_some, Floating.isFinite] at hexec <;>
      cases hexec <;> exact ⟨htyped, hbuffer, hcolumn, by first | exact hnull | rfl⟩
  | _ =>
    simp only [Call.exec, setValueAsBool, setValueAsTiny, setValueAsI32, setValueAsU32,
      setValueAsU64, setValueAsNull, hprepare, Option.map_some] at hexec
    cases hexec
    exact ⟨htyped, hbuffer, hcolumn, hnull⟩

/-- **The type of nulls stays**, whatever is written. -/
theorem Typed.of_null (h : p.Typed .null) (c : Call) (conv : Conversions) :
    (c.isNull = true ∧ ∃ p', c.exec p = some p' ∧ p'.Typed .null ∧ p'.Holds conv c) ∨
      (c.isNull = false ∧ ∀ p', c.exec p = some p' → p'.Typed .null ∧ ¬ p'.Holds conv c) := by
  have hsent {p : Position} (h : p.Typed .null) : p.sent = some .null := if_pos (.inl h.bufferType)
  cases hc : c.isNull with
  | true =>
    have hbound : Position.Typed .null { p with bound := true } := ⟨h.1, h.2, h.3, h.4⟩
    have hsends : c.sends = .null := of_decide_eq_true hc
    refine .inl ⟨rfl, _, exec_null h.typed hc, hbound, ?_, ?_, ?_⟩
    · rw [hsent hbound, hsends]
    · simp [Position.valueIsNull, h.bufferType, hc]
    · cases c with
      | null => trivial
      | f32 value | f64 value => exact fun hfinite => by simp [sends, hfinite] at hsends
      | _ => cases hc
  | false =>
    have hsends : c.sends ≠ .null := of_decide_eq_false hc
    refine .inr ⟨rfl, fun p' hexec => ⟨h.exec hexec, fun hholds => hsends ?_⟩⟩
    exact Option.some.inj (hholds.1.symm.trans (hsent (h.exec hexec)))

/-- Only a string asks for its type. -/
theorem Typed.isSome_exec (h : p.Typed .null) (c : Call) :
    (c.exec p).isSome = true ↔ c.fieldType ≠ .string := by
  have hprepare := prepare_of_typed h.typed
  cases c with
  | str value =>
    have hset : (p.prepare .string).bind (fun p => (p.setString value).bind
        fun p => some { p with buffered := true, bound := true }) = none := by
      rw [hprepare, Option.bind_some, setString, if_pos (by simp [h.columnType])]
      rfl
    have hexec : Call.exec p (.str value) = none := hset
    simp [hexec, fieldType, sends]
  | f32 value | f64 value =>
    cases value <;> simp [Call.exec, setValueAsF32, setValueAsF64, setValueAsNull, hprepare,
      Floating.isFinite, fieldType, sends]
  | _ => simp [Call.exec, setValueAsBool, setValueAsTiny, setValueAsI32, setValueAsU32,
      setValueAsU64, setValueAsNull, hprepare, fieldType, sends]

/-- A new position gets the type of its first call; one that was made with a length cannot. -/
theorem prepare_new (length : ℕ) (c : Call) :
    (length = 0 ∧ ∃ p, (new length).prepare c.fieldType = some p ∧ p.Typed c.fieldType) ∨
      (length ≠ 0 ∧ (new length).prepare c.fieldType = none) := by
  by_cases hlength : length = 0
  · refine .inl ⟨hlength, ?_⟩
    rw [new, if_neg (not_not.mpr hlength)]
    unfold fieldType
    cases c.sends <;> exact ⟨_, rfl, rfl, rfl, rfl, rfl⟩
  · refine .inr ⟨hlength, ?_⟩
    rw [new, if_pos hlength]
    rfl

end Position

/-- The calls for a position, one after the other. -/
def run (p : Position) (cs : List Call) : Option Position := cs.foldlM Call.exec p

theorem run_cons (p : Position) (c : Call) (cs : List Call) :
    run p (c :: cs) = (c.exec p).bind fun p => run p cs := rfl

/-- The type stays, and nothing fails when the values are of that type. -/
theorem run_typed {t : FieldType} (ht : t ≠ .null) {p : Position} (h : p.Typed t)
    {cs : List Call} (hcs : ∀ c ∈ cs, c.isNull ∨ c.fieldType = t) (conv : Position.Conversions) :
    ∃ p', run p cs = some p' ∧ p'.Typed t := by
  induction cs generalizing p with
  | nil => exact ⟨p, rfl, h⟩
  | cons c cs ih =>
    obtain ⟨hc, hcs⟩ := List.forall_mem_cons.mp hcs
    obtain ⟨p', hexec, hp'⟩ : ∃ p', c.exec p = some p' ∧ p'.Typed t := by
      cases hnull : c.isNull with
      | true =>
        obtain ⟨p', hexec, hp', -⟩ := h.null ht hnull conv
        exact ⟨p', hexec, hp'⟩
      | false =>
        have htype : c.fieldType = t := hc.resolve_left (by simp [hnull])
        obtain ⟨p', hexec, hp', -⟩ := (htype.symm ▸ h : p.Typed c.fieldType).value hnull conv
        exact ⟨p', hexec, htype ▸ hp'⟩
    rw [run_cons, hexec]
    exact ih hp' hcs

/-- The type of nulls stays, and only a string fails. -/
theorem run_null {p : Position} (h : p.Typed .null) (cs : List Call) :
    (∃ p', run p cs = some p' ∧ p'.Typed .null) ∧ (∀ c ∈ cs, c.fieldType ≠ .string) ∨
      run p cs = none ∧ ¬ ∀ c ∈ cs, c.fieldType ≠ .string := by
  induction cs generalizing p with
  | nil => exact .inl ⟨⟨p, rfl, h⟩, List.forall_mem_nil _⟩
  | cons c cs ih =>
    rw [run_cons, List.forall_mem_cons]
    by_cases hc : c.fieldType ≠ .string
    · obtain ⟨p', hexec⟩ := Option.isSome_iff_exists.mp ((h.isSome_exec c).mpr hc)
      rw [hexec]
      exact (ih (h.exec hexec)).imp (fun ⟨hrun, hcs⟩ => ⟨hrun, hc, hcs⟩)
        (fun ⟨hrun, hcs⟩ => ⟨hrun, fun hall => hcs hall.2⟩)
    · rw [Option.not_isSome_iff_eq_none.mp (mt (h.isSome_exec c).mp hc)]
      exact .inr ⟨rfl, fun hall => hc hall.1⟩

theorem run_concat (p : Position) (cs : List Call) (c : Call) :
    run p (cs ++ [c]) = (run p cs).bind c.exec := by
  simp [run, List.foldlM_append]

/-- The position has the type of its first call, and the other calls follow. -/
theorem run_new (length : ℕ) (d : Call) (ds : List Call) :
    (length = 0 ∧ ∃ p, p.Typed d.fieldType ∧ run (.new length) (d :: ds) = run p (d :: ds)) ∨
      (length ≠ 0 ∧ run (.new length) (d :: ds) = none) := by
  rcases Position.prepare_new length d with ⟨hlength, p, hprepare, hp⟩ | ⟨hlength, hprepare⟩
  · refine .inl ⟨hlength, p, hp, ?_⟩
    rw [run_cons, Position.exec_eq, hprepare]
    rfl
  · refine .inr ⟨hlength, ?_⟩
    rw [run_cons, Position.exec_eq, hprepare]
    rfl

theorem whole_of_isNull {c : Call} (h : c.isNull = true) : c.Whole := by
  cases c with
  | u64 | str => cases h
  | _ => trivial

/-- **The last call wins** in exactly these runs. -/
theorem last_call_wins_iff (conv : Position.Conversions) (length : ℕ) (cs : List Call) (c : Call)
    (h : OneType (cs ++ [c])) :
    (∃ p, run (.new length) (cs ++ [c]) = some p ∧ p.Holds conv c) ↔
      length = 0 ∧ (∀ d ∈ cs.head?, d.isNull = c.isNull) ∧
        (c.isNull → ∀ d ∈ cs, d.fieldType ≠ .string) ∧ c.Whole := by
  obtain ⟨t, ht⟩ := h
  obtain ⟨d, ds, hds⟩ : ∃ d ds, cs ++ [c] = d :: ds := List.exists_cons_of_ne_nil (by simp)
  have hhead : (∀ e ∈ cs.head?, e.isNull = c.isNull) ↔ d.isNull = c.isNull := by
    cases cs with
    | nil => cases hds; simp
    | cons e es => cases hds; simp
  rw [hhead]
  rcases run_new length d ds with ⟨hlength, p, hp, hrun⟩ | ⟨hlength, hrun⟩
  · rw [hds, hrun, ← hds, run_concat, and_iff_right hlength]
    cases hd : d.isNull with
    | true =>
      rw [Position.fieldType_of_isNull hd] at hp
      rcases run_null hp cs with ⟨⟨p', hrun', hp'⟩, hcs⟩ | ⟨hrun', hcs⟩
      · rw [hrun', Option.bind_some]
        rcases hp'.of_null c conv with ⟨hc, q, hexec, -, hq⟩ | ⟨hc, hexec⟩
        · exact iff_of_true ⟨q, hexec, hq⟩ ⟨hc.symm, fun _ => hcs, whole_of_isNull hc⟩
        · refine iff_of_false (fun ⟨q, hq, hholds⟩ => (hexec q hq).2 hholds) fun hcond => ?_
          rw [hc] at hcond
          cases hcond.1
      · rw [hrun', Option.bind_none]
        exact iff_of_false (fun ⟨q, hq, _⟩ => nomatch hq)
          fun hcond => hcs (hcond.2.1 hcond.1.symm)
    | false =>
      have hmem : d ∈ cs ++ [c] := hds ▸ List.mem_cons_self
      have htype : d.fieldType = t := (ht d hmem).resolve_left (by simp [hd])
      have hne := Position.fieldType_ne_null hd
      rw [htype] at hp hne
      obtain ⟨p', hrun', hp'⟩ := run_typed hne hp
        (fun e he => ht e (List.mem_append_left _ he)) conv
      rw [hrun', Option.bind_some]
      cases hc : c.isNull with
      | true =>
        obtain ⟨q, hexec, -, hq⟩ := hp'.null hne hc conv
        rw [hexec]
        exact iff_of_false (fun ⟨r, hr, hholds⟩ => hq (Option.some.inj hr ▸ hholds))
          fun hcond => nomatch hcond.1
      | false =>
        have hc' : c.fieldType = t := (ht c (by simp)).resolve_left (by simp [hc])
        obtain ⟨q, hexec, -, hq⟩ := (hc'.symm ▸ hp' : p'.Typed c.fieldType).value hc conv
        rw [hexec]
        constructor
        · rintro ⟨r, hr, hholds⟩
          exact ⟨rfl, nofun, hq.mp (Option.some.inj hr ▸ hholds)⟩
        · exact fun hcond => ⟨q, rfl, hq.mpr hcond.2.2⟩
  · refine iff_of_false (fun ⟨p, hp, _⟩ => ?_) (fun hcond => hlength hcond.1)
    rw [hds, hrun] at hp
    cases hp

/-- A string, a null and another string. -/
theorem last_call_wins_iff_str :
    ∃ p, run (.new 0) ([.str ['a'], .null] ++ [.str ['b']]) = some p ∧
      p.Holds ⟨fun _ => 0, fun _ => 0, fun _ => .nan, fun _ => .nan⟩ (.str ['b']) := by
  have htypes : OneType ([.str ['a'], .null] ++ [.str ['b']]) := ⟨.string, by decide⟩
  refine (last_call_wins_iff _ 0 _ _ htypes).mpr ⟨rfl, fun d hd => ?_, nofun, ?_⟩
  · obtain rfl := Option.some.inj hd
    rfl
  · show Position.nul ∉ ['b']
    decide

/-- A null behind a number. -/
theorem not_last_call_wins : ¬ ∀ (conv : Position.Conversions) (cs : List Call) (c : Call),
    OneType (cs ++ [c]) → ∃ p, run (.new 0) (cs ++ [c]) = some p ∧ p.Holds conv c := by
  intro h
  obtain ⟨p, hrun, hholds⟩ := h ⟨fun _ => 0, fun _ => 0, fun _ => .nan, fun _ => .nan⟩
    [.u32 1] .null ⟨.long, by decide⟩
  cases hrun
  exact absurd hholds.2.1 (by decide)

end CentreonBroker.Database
