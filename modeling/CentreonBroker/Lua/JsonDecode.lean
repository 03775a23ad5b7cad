import CentreonBroker.Lib.Json
import Mathlib.Data.List.TakeWhile

/-!
# Decoding JSON

`broker.json_decode` builds a Lua value on the stack of the interpreter. The functions for arrays and
objects take it for granted that a nested call pushes one value, and store what is on top of the
stack in what is beneath. A `null` pushes nothing.
-/

namespace CentreonBroker.Lua

/-- Lua values, where `δ` has the floating-point numbers. A table is in one place only, until the
value it is part of is complete. -/
inductive Value (δ : Type) where
  | boolean (b : Bool)
  | integer (i : Int)
  | number (x : δ)
  | string (s : List Char)
  | table (entries : List (Value δ × Value δ))

/-- The numbers of the JSON library: what `number_value` and `int_value` make of a number that is
written so, and the conversion of an integer to a floating-point number. -/
structure Numbers (δ : Type) where
  numberValue : List Char → δ
  intValue : List Char → Int
  ofInt : Int → δ
  eq : δ → δ → Bool

section Model

variable {δ : Type}

namespace Value

/-- Two keys are the same. A table is the same key as no other value. -/
def sameKey : Value δ → Value δ → Bool
  | .boolean b, .boolean b' => b = b'
  | .integer i, .integer i' => i = i'
  | .string s, .string s' => s = s'
  | _, _ => false

/-- `t[k] = v`, on the entries of a table. -/
def assign (entries : List (Value δ × Value δ)) (k v : Value δ) : List (Value δ × Value δ) :=
  entries.filter (fun e => !sameKey e.1 k) ++ [(k, v)]

/-- `t[k]`, none for `nil`. -/
def get (t k : Value δ) : Option (Value δ) :=
  match t with
  | .table entries => (entries.find? fun e => sameKey e.1 k).map Prod.snd
  | _ => none

end Value

/-- What a call has pushed, the top first. Beneath is what others have. There is always room: the
source asks for none, and has the 20 slots that Lua promises (see `slots`). -/
abbrev Stack (δ : Type) := List (Value δ)

/-- `lua_rawseti(L, -2, i)`, none when that is through a slot that was not pushed or is no table. -/
def rawSetI (i : Int) : Stack δ → Option (Stack δ)
  | v :: .table entries :: st => some (.table (Value.assign entries (.integer i) v) :: st)
  | _ => none

/-- `lua_settable(L, -3)`, none when that is through a slot that was not pushed or is no table. -/
def setTable : Stack δ → Option (Stack δ)
  | v :: k :: .table entries :: st => some (.table (Value.assign entries k v) :: st)
  | _ => none

/-- `lua_pushstring` of a `c_str()`. -/
def pushString (s : List Char) : Value δ := .string (s.takeWhile (· ≠ '\x00'))

/-- The character that stands for a sequence of a backslash and this one. -/
def sequence : Char → Option Char
  | '\\' => some '\\'
  | '"' => some '"'
  | 't' => some '\t'
  | 'r' => some '\r'
  | 'n' => some '\n'
  | _ => none

/-- The loop over the backslashes of a string: sequences are replaced, and what is behind them is
searched. -/
def unescape : List Char → List Char
  | [] => []
  | [c] => [c]
  | c :: d :: s =>
    if c = '\\' then
      match sequence d with
      | some e => e :: unescape s
      | none => c :: unescape (d :: s)
    else c :: unescape (d :: s)

variable (num : Numbers δ)

/-- What is pushed for a number. -/
def pushNumber (literal : List Char) : Value δ :=
  if num.eq (num.numberValue literal) (num.ofInt (num.intValue literal)) then
    .integer (num.intValue literal)
  else .number (num.numberValue literal)

mutual

/-- `broker_json_decode`. -/
def decode : Json → Stack δ → Option (Stack δ)
  | .string s, st => some (pushString (unescape s) :: st)
  | .number literal, st => some (pushNumber num literal :: st)
  | .bool b, st => some (.boolean b :: st)
  | .array items, st => decodeArray 1 items (.table [] :: st)
  | .object members, st => decodeObject members (.table [] :: st)
  | .null, st => some st

/-- The loop of `broker_json_decode_array`. -/
def decodeArray (i : Int) : List Json → Stack δ → Option (Stack δ)
  | [], st => some st
  | j :: items, st => do decodeArray (i + 1) items (← rawSetI i (← decode j st))

/-- The loop of `broker_json_decode_object`. -/
def decodeObject : List (List Char × Json) → Stack δ → Option (Stack δ)
  | [], st => some st
  | (k, j) :: members, st => do decodeObject members (← setTable (← decode j (pushString k :: st)))

end

/-! ## What a call is to leave -/

mutual

/-- The Lua value has each element but `null` under its index or its name. -/
def Stored : Json → Value δ → Prop
  | .null, _ => False
  | .bool b, v => v = .boolean b
  | .number literal, v => v = pushNumber num literal
  | .string s, v => v = pushString (unescape s)
  | .array items, v => StoredItems 1 items v
  | .object members, v => StoredMembers members v

def StoredItems (i : Int) : List Json → Value δ → Prop
  | [], _ => True
  | j :: items, v =>
    (j = .null ∨ ∃ w, v.get (.integer i) = some w ∧ Stored j w) ∧ StoredItems (i + 1) items v

def StoredMembers : List (List Char × Json) → Value δ → Prop
  | [], _ => True
  | (k, j) :: members, v =>
    (j = .null ∨ ∃ w, v.get (.string k) = some w ∧ Stored j w) ∧ StoredMembers members v

end

/-- A call pushes one value, through slots of its own, that has the elements of the document. -/
def KeepsStack (j : Json) : Prop := ∃ v, decode num j [] = some [v] ∧ Stored num j v

/-! ## Stack effects -/

theorem length_rawSetI {i : Int} {st st' : Stack δ} (h : rawSetI i st = some st') :
    st'.length + 1 = st.length := by
  unfold rawSetI at h
  split at h
  · cases h
    rfl
  · cases h

theorem length_setTable {st st' : Stack δ} (h : setTable st = some st') :
    st'.length + 2 = st.length := by
  unfold setTable at h
  split at h
  · cases h
    rfl
  · cases h

variable {num}

mutual

/-- A call that does not fail pushes one value, less one for each `null`. -/
theorem length_decode (j : Json) {st st' : Stack δ} (h : decode num j st = some st') :
    st'.length + j.nulls = st.length + 1 := by
  cases j with
  | null | bool b | number literal | string s =>
    cases h
    rfl
  | array items => exact length_decodeArray 1 items h
  | object members => exact length_decodeObject members h

theorem length_decodeArray (i : Int) (items : List Json) {st st' : Stack δ}
    (h : decodeArray num i items st = some st') :
    st'.length + Json.nullsItems items = st.length := by
  cases items with
  | nil =>
    cases h
    rfl
  | cons j items =>
    obtain ⟨st₁, hj, h⟩ := Option.bind_eq_some_iff.mp h
    obtain ⟨st₂, hset, h⟩ := Option.bind_eq_some_iff.mp h
    have h₁ := length_decode j hj
    have h₂ := length_rawSetI hset
    have h₃ := length_decodeArray (i + 1) items h
    rw [Json.nullsItems]
    omega

theorem length_decodeObject (members : List (List Char × Json)) {st st' : Stack δ}
    (h : decodeObject num members st = some st') :
    st'.length + Json.nullsMembers members = st.length := by
  match members with
  | [] =>
    cases h
    rfl
  | (k, j) :: members =>
    obtain ⟨st₁, hj, h⟩ := Option.bind_eq_some_iff.mp h
    obtain ⟨st₂, hset, h⟩ := Option.bind_eq_some_iff.mp h
    have h₁ := length_decode j hj
    have h₂ := length_setTable hset
    have h₃ := length_decodeObject members h
    rw [List.length_cons] at h₁
    rw [Json.nullsMembers]
    omega

end

/-! ## Room -/

mutual

/-- The slots that are in use at once, at the most: one for a value, and one for each array and two
for each object around it. -/
def slots : Json → ℕ
  | .array items => slotsItems items + 1
  | .object members => slotsMembers members + 1
  | _ => 1

def slotsItems : List Json → ℕ
  | [] => 0
  | j :: items => max (slots j) (slotsItems items)

def slotsMembers : List (List Char × Json) → ℕ
  | [] => 0
  | (_, j) :: members => max (slots j + 1) (slotsMembers members)

end

theorem slots_le_items (before after : List Json) (j : Json) :
    slots j ≤ slotsItems (before ++ j :: after) := by
  induction before with
  | nil => exact le_max_left _ _
  | cons i before ih => exact ih.trans (le_max_right _ _)

theorem slots_lt_members (before after : List (List Char × Json)) (k : List Char) (j : Json) :
    slots j < slotsMembers (before ++ (k, j) :: after) := by
  induction before with
  | nil => exact Nat.le_max_left _ _
  | cons m before ih => exact ih.trans_le (Nat.le_max_right _ _)

variable (num) in
/-- The calls in a call, with the stacks that they find. -/
inductive Nested : Json → Stack δ → Json → Stack δ → Prop
  | self {j st} : Nested j st j st
  | array {before j after st st₁ j' st'} :
      decodeArray num 1 before (.table [] :: st) = some st₁ → Nested j st₁ j' st' →
        Nested (.array (before ++ j :: after)) st j' st'
  | object {before k j after st st₁ j' st'} :
      decodeObject num before (.table [] :: st) = some st₁ →
        Nested j (pushString k :: st₁) j' st' → Nested (.object (before ++ (k, j) :: after)) st j' st'

/-- **Room.** Where a document has its slots, each call in it finds one for what it pushes. -/
theorem length_nested {j j' : Json} {st st' : Stack δ} (h : Nested num j st j' st') :
    st'.length + 1 ≤ st.length + slots j := by
  induction h with
  | @self j st => cases j <;> exact Nat.add_le_add_left (Nat.le_add_left 1 _) _
  | @array before j after st st₁ _ _ hbefore _ ih =>
    have hlength := length_decodeArray 1 before hbefore
    have hle := slots_le_items before after j
    rw [List.length_cons] at hlength
    rw [slots]
    omega
  | @object before k j after st st₁ _ _ hbefore _ ih =>
    have hlength := length_decodeObject before hbefore
    have hlt := slots_lt_members before after k j
    rw [List.length_cons] at hlength ih
    rw [slots]
    omega

/-! ## Documents without null -/

variable (num)

mutual

/-- The Lua value of a document without `null`. -/
def ofJson : Json → Value δ
  | .string s => pushString (unescape s)
  | .number literal => pushNumber num literal
  | .bool b => .boolean b
  | .array items => .table (ofItems 1 items [])
  | .object members => .table (ofMembers members [])
  | .null => .boolean false

def ofItems (i : Int) : List Json → List (Value δ × Value δ) → List (Value δ × Value δ)
  | [], entries => entries
  | j :: items, entries => ofItems (i + 1) items (Value.assign entries (.integer i) (ofJson j))

def ofMembers : List (List Char × Json) → List (Value δ × Value δ) → List (Value δ × Value δ)
  | [], entries => entries
  | (k, j) :: members, entries => ofMembers members (Value.assign entries (pushString k) (ofJson j))

end

variable {num}

mutual

theorem decode_eq (j : Json) (h : j.nulls = 0) (st : Stack δ) :
    decode num j st = some (ofJson num j :: st) := by
  cases j with
  | null => cases h
  | bool b => rfl
  | number literal => rfl
  | string s => rfl
  | array items => exact decodeArray_eq 1 items h [] st
  | object members => exact decodeObject_eq members h [] st

theorem decodeArray_eq (i : Int) (items : List Json) (h : Json.nullsItems items = 0)
    (entries : List (Value δ × Value δ)) (st : Stack δ) :
    decodeArray num i items (.table entries :: st) =
      some (.table (ofItems num i items entries) :: st) := by
  cases items with
  | nil => rfl
  | cons j items =>
    obtain ⟨hj, hitems⟩ := Nat.add_eq_zero_iff.mp h
    rw [decodeArray, decode_eq j hj]
    exact decodeArray_eq (i + 1) items hitems _ st

theorem decodeObject_eq (members : List (List Char × Json)) (h : Json.nullsMembers members = 0)
    (entries : List (Value δ × Value δ)) (st : Stack δ) :
    decodeObject num members (.table entries :: st) =
      some (.table (ofMembers num members entries) :: st) := by
  match members with
  | [] => rfl
  | (k, j) :: members =>
    obtain ⟨hj, hmembers⟩ := Nat.add_eq_zero_iff.mp h
    rw [decodeObject, decode_eq j hj]
    exact decodeObject_eq members hmembers _ st

end

/-! ## What tables have -/

/-- A string that `lua_pushstring` does not cut. -/
def NoNul (s : List Char) : Prop := '\x00' ∉ s

theorem takeWhile_noNul (s : List Char) : NoNul (s.takeWhile (· ≠ '\x00')) :=
  fun h => by simpa using List.mem_takeWhile_imp h

theorem pushString_of_noNul {s : List Char} (h : NoNul s) :
    (pushString s : Value δ) = .string s := by
  have hall : ∀ c ∈ s, decide (c ≠ '\x00') = true :=
    fun c hc => decide_eq_true fun he => h (he ▸ hc)
  rw [pushString, List.takeWhile_eq_self_iff.mpr hall]

/-- No entry has the key. -/
def Fresh (entries : List (Value δ × Value δ)) (k : Value δ) : Prop :=
  ∀ e ∈ entries, Value.sameKey e.1 k = false

variable {entries : List (Value δ × Value δ)} {k : Value δ}

theorem assign_fresh (h : Fresh entries k)
    (v : Value δ) : Value.assign entries k v = entries ++ [(k, v)] := by
  rw [Value.assign, List.filter_eq_self.mpr fun e he => by rw [h e he]; rfl]

theorem get_of_fresh {rest : List (Value δ × Value δ)} (h : Fresh entries k)
    (hk : Value.sameKey k k = true) (v : Value δ) :
    Value.get (.table (entries ++ (k, v) :: rest)) k = some v := by
  have hnone : entries.find? (fun e => Value.sameKey e.1 k) = none :=
    List.find?_eq_none.mpr fun e he => by simp [h e he]
  rw [Value.get, List.find?_append, hnone, Option.none_or, List.find?_cons, hk]
  rfl

theorem integer_ne {i k : Int} (h : i ≠ k) :
    Value.sameKey (.integer i : Value δ) (.integer k) = false := decide_eq_false h

theorem string_ne {s t : List Char} (h : s ≠ t) :
    Value.sameKey (.string s : Value δ) (.string t) = false := decide_eq_false h

theorem Fresh.concat {k' : Value δ} (h : Fresh entries k)
    (hk : Value.sameKey k' k = false) (v : Value δ) : Fresh (entries ++ [(k', v)]) k := by
  intro e he
  rcases List.mem_append.mp he with he | he
  · exact h e he
  · rwa [List.mem_singleton.mp he]

theorem fresh_nil (k : Value δ) : Fresh [] k := List.forall_mem_nil _

variable (num)

/-- The entries for the elements of an array. -/
def indexed (i : Int) : List Json → List (Value δ × Value δ)
  | [] => []
  | j :: items => (.integer i, ofJson num j) :: indexed (i + 1) items

/-- The entries for the members of an object. -/
def named (members : List (List Char × Json)) : List (Value δ × Value δ) :=
  members.map fun m => (.string m.1, ofJson num m.2)

variable {num}

theorem ofItems_eq (i : Int) (items : List Json)
    (hfresh : ∀ k, i ≤ k → Fresh entries (.integer k)) :
    ofItems num i items entries = entries ++ indexed num i items := by
  induction items generalizing i entries with
  | nil => rw [ofItems, indexed, List.append_nil]
  | cons j items ih =>
    rw [ofItems, assign_fresh (hfresh i (Int.le_refl i)), ih (i + 1), List.append_assoc]
    · rfl
    · intro k hk
      exact (hfresh k (by omega)).concat (integer_ne (by omega)) _

variable {members : List (List Char × Json)}

theorem ne_of_not_mem_names {k : List Char}
    (h : k ∉ members.map Prod.fst) : ∀ m ∈ members, k ≠ m.1 :=
  fun _ hm he => h (he ▸ List.mem_map_of_mem hm)

theorem ofMembers_eq (members : List (List Char × Json))
    (hnodup : (members.map Prod.fst).Nodup) (hnul : ∀ m ∈ members, NoNul m.1)
    (hfresh : ∀ m ∈ members, Fresh entries (.string m.1)) :
    ofMembers num members entries = entries ++ named num members := by
  induction members generalizing entries with
  | nil => rw [ofMembers, named, List.map_nil, List.append_nil]
  | cons m members ih =>
    obtain ⟨k, j⟩ := m
    obtain ⟨hnot, hnodup⟩ := List.nodup_cons.mp hnodup
    rw [ofMembers, pushString_of_noNul (hnul _ List.mem_cons_self),
      assign_fresh (hfresh _ List.mem_cons_self), ih hnodup, List.append_assoc]
    · rfl
    · exact fun m hm => hnul m (List.mem_cons_of_mem _ hm)
    · intro m hm
      exact (hfresh m (List.mem_cons_of_mem _ hm)).concat (string_ne (ne_of_not_mem_names hnot m hm)) _

/-- The keys of a table that an object is decoded to are cut. -/
theorem key_ofMembers
    (h : ∀ e ∈ entries, ∃ k, e.1 = pushString k) :
    ∀ e ∈ ofMembers num members entries, ∃ k, e.1 = pushString k := by
  induction members generalizing entries with
  | nil => exact h
  | cons m members ih =>
    refine ih fun e he => ?_
    rcases List.mem_append.mp he with he | he
    · exact h e (List.mem_filter.mp he).1
    · exact ⟨m.1, congrArg Prod.fst (List.mem_singleton.mp he)⟩

theorem noNul_of_get {k : List Char} {w : Value δ}
    (h : (Value.table (ofMembers num members [])).get (.string k) = some w) : NoNul k := by
  obtain ⟨e, he, -⟩ := Option.map_eq_some_iff.mp h
  obtain ⟨k', hk'⟩ := key_ofMembers (List.forall_mem_nil _) e (List.mem_of_find?_eq_some he)
  have hsame := List.find?_some he
  rw [hk'] at hsame
  exact (of_decide_eq_true hsame : k'.takeWhile _ = k) ▸ takeWhile_noNul k'

/-! ## The result -/

theorem ne_null {j : Json} (h : j.nulls = 0) : j ≠ .null := by
  rintro rfl
  cases h

theorem StoredMembers.noNul {v : Value δ}
    (h : StoredMembers num members v) (hnull : Json.nullsMembers members = 0)
    (hv : ∀ k w, v.get (.string k) = some w → NoNul k) : ∀ m ∈ members, NoNul m.1 := by
  induction members with
  | nil => exact List.forall_mem_nil _
  | cons m members ih =>
    obtain ⟨k, j⟩ := m
    obtain ⟨hj, hmembers⟩ := Nat.add_eq_zero_iff.mp hnull
    obtain ⟨hhead, htail⟩ := h
    obtain ⟨w, hw, -⟩ := hhead.resolve_left (ne_null hj)
    exact List.forall_mem_cons.mpr ⟨hv k w hw, ih htail hmembers⟩

theorem noNul_of_names (h : Json.NamesMembers NoNul members) :
    ∀ m ∈ members, NoNul m.1 := by
  induction members with
  | nil => exact List.forall_mem_nil _
  | cons m members ih => exact List.forall_mem_cons.mpr ⟨h.1, ih h.2.2⟩

mutual

/-- The value of a document has its elements exactly when no name is cut. -/
theorem stored_ofJson_iff (j : Json) (hnull : j.nulls = 0) (hdistinct : j.Distinct) :
    Stored num j (ofJson num j) ↔ j.Names NoNul := by
  cases j with
  | null => cases hnull
  | bool b => exact iff_of_true rfl trivial
  | number literal => exact iff_of_true rfl trivial
  | string s => exact iff_of_true rfl trivial
  | array items =>
    have hitems := storedItems_iff 1 items hnull hdistinct fun k _ => fresh_nil _
    rwa [← ofItems_eq 1 items fun k _ => fresh_nil _] at hitems
  | object members =>
    obtain ⟨hnodup, hdistinct⟩ := hdistinct
    have hmembers : (∀ m ∈ members, NoNul m.1) →
        (StoredMembers num members (.table (ofMembers num members [])) ↔
          Json.NamesMembers NoNul members) := by
      intro hnul
      rw [ofMembers_eq members hnodup hnul fun m _ => fresh_nil _]
      exact storedMembers_iff members hnull hdistinct hnodup hnul fun m _ => fresh_nil _
    constructor
    · intro h
      have hnul : ∀ m ∈ members, NoNul m.1 :=
        StoredMembers.noNul h hnull fun k w => noNul_of_get
      exact (hmembers hnul).mp h
    · intro h
      exact (hmembers (noNul_of_names h)).mpr h

theorem storedItems_iff (i : Int) (items : List Json) (hnull : Json.nullsItems items = 0)
    (hdistinct : Json.DistinctItems items) {entries : List (Value δ × Value δ)}
    (hfresh : ∀ k, i ≤ k → Fresh entries (.integer k)) :
    StoredItems num i items (.table (entries ++ indexed num i items)) ↔
      Json.NamesItems NoNul items := by
  cases items with
  | nil => exact Iff.rfl
  | cons j items =>
    obtain ⟨hj, hitems⟩ := Nat.add_eq_zero_iff.mp hnull
    have hget : (Value.table (entries ++ indexed num i (j :: items))).get (.integer i) =
        some (ofJson num j) := get_of_fresh (hfresh i (Int.le_refl i)) (decide_eq_true rfl) _
    have hfresh' : ∀ k, i + 1 ≤ k → Fresh (entries ++ [(.integer i, ofJson num j)]) (.integer k) :=
      fun k hk => (hfresh k (by omega)).concat (integer_ne (by omega)) _
    have hrest := storedItems_iff (i + 1) items hitems hdistinct.2 hfresh'
    rw [List.append_assoc] at hrest
    rw [StoredItems, Json.NamesItems, hget]
    refine and_congr ?_ hrest
    rw [or_iff_right (ne_null hj), ← stored_ofJson_iff j hj hdistinct.1]
    simp

theorem storedMembers_iff (members : List (List Char × Json))
    (hnull : Json.nullsMembers members = 0) (hdistinct : Json.DistinctMembers members)
    (hnodup : (members.map Prod.fst).Nodup) (hnul : ∀ m ∈ members, NoNul m.1)
    {entries : List (Value δ × Value δ)} (hfresh : ∀ m ∈ members, Fresh entries (.string m.1)) :
    StoredMembers num members (.table (entries ++ named num members)) ↔
      Json.NamesMembers NoNul members := by
  match members with
  | [] => exact Iff.rfl
  | (k, j) :: members =>
    obtain ⟨hj, hmembers⟩ := Nat.add_eq_zero_iff.mp hnull
    obtain ⟨hnot, hnodup⟩ := List.nodup_cons.mp hnodup
    have hget : (Value.table (entries ++ named num ((k, j) :: members))).get (.string k) =
        some (ofJson num j) :=
      get_of_fresh (hfresh _ List.mem_cons_self) (decide_eq_true rfl) _
    have hrest := storedMembers_iff members hmembers hdistinct.2 hnodup
      (fun m hm => hnul m (List.mem_cons_of_mem _ hm)) fun m hm =>
        (hfresh m (List.mem_cons_of_mem _ hm)).concat
          (string_ne (ne_of_not_mem_names hnot m hm)) (ofJson num j)
    rw [List.append_assoc] at hrest
    rw [StoredMembers, Json.NamesMembers, hget, and_iff_right (hnul _ List.mem_cons_self)]
    refine and_congr ?_ hrest
    rw [or_iff_right (ne_null hj), ← stored_ofJson_iff j hj hdistinct.1]
    simp

end

variable (num)

/-- **The stack.** A call pushes one value, through slots of its own, with each element under its
index or its name, if and only if there is no `null` in the document, at any depth, and no name has
the character 0. -/
theorem keepsStack_iff (d : Document) :
    KeepsStack num d.json ↔ d.json.nulls = 0 ∧ d.json.Names NoNul := by
  constructor
  · rintro ⟨v, hdecode, hstored⟩
    have hnull : d.json.nulls = 0 := by
      have hlength := length_decode d.json hdecode
      rw [List.length_singleton, List.length_nil] at hlength
      omega
    rw [decode_eq d.json hnull, Option.some.injEq, List.cons.injEq] at hdecode
    rw [← hdecode.1] at hstored
    exact ⟨hnull, (stored_ofJson_iff d.json hnull d.distinct).mp hstored⟩
  · rintro ⟨hnull, hnames⟩
    exact ⟨_, decode_eq d.json hnull [], (stored_ofJson_iff d.json hnull d.distinct).mpr hnames⟩

end Model

/-- The document `[null]`. -/
def arrayOfNull : Document := ⟨.array [.null], trivial, trivial⟩

/-- The `null` pushes nothing, and the array would be stored in what is beneath. -/
theorem not_keepsStack : ¬ ∀ (δ : Type) (num : Numbers δ) (d : Document), KeepsStack num d.json := by
  intro h
  obtain ⟨v, hdecode, -⟩ := h Int ⟨fun _ => 0, fun _ => 0, id, fun x y => x = y⟩ arrayOfNull
  cases hdecode

end CentreonBroker.Lua
