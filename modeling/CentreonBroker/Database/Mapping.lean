import CentreonBroker.Database.Bind
import CentreonBroker.Misc.Escape

/-!
# The members of an event, bound to a statement

An event class has a table of its members. `mysql_stmt::operator<<` goes through the table, and
binds what each member that has a name holds to the parameter of that name. What is invalid for the
attribute of a member is to be bound as a null.
-/

namespace CentreonBroker.Mapping

open Database Misc Misc.Escape Utf8

/-- `mapping::source`, with what it reads from an event. -/
inductive Source (δ : Type) where
  | bool (get : δ → Bool)
  | double (get : δ → Floating)
  | int (get : δ → BitVec 32)
  | short (get : δ → BitVec 16)
  | string (get : δ → Bytes) (maxLen : ℕ)
  | time (get : δ → ℤ)
  | uint (get : δ → BitVec 32)
  /-- A type that the outputs do not know, by its number. -/
  | other (type : ℕ)

def invalidOnZero : BitVec 32 := 1

def invalidOnMinusOne : BitVec 32 := 2

/-- `mapping::entry`. -/
structure Entry (δ : Type) where
  /-- `_attribute`. -/
  attr : BitVec 32
  /-- It may be a null pointer. -/
  nameV2 : Option (List Char)
  source : Source δ

/-- `io::event_info`. -/
structure EventInfo (δ : Type) where
  name : String
  /-- The table, without the null entry that is its end. -/
  mapping : List (Entry δ)

inductive Failure where
  | invalidMapping (name : String) (type : ℕ)
  | noMapping (type : ℕ)
  /-- The search for a place to cut passes the beginning of the string. -/
  | outside
  deriving DecidableEq

/-- The text of the exception. -/
def Failure.what : Failure → Option String
  | invalidMapping name type =>
    some s!"invalid mapping for object of type '{name}': {type} is not a known type ID"
  | noMapping type =>
    some s!"cannot bind object of type {type} to database query: mapping does not exist"
  | outside => none

/-- The bytes of a string, each as a character. -/
def chars (bs : Bytes) : List Char := bs.map fun b => Char.ofNat b.toNat

/-- The two checks for `INT` and `TIME`. -/
def checked (attr : BitVec 32) (isZero isMinusOne : Prop) [Decidable isZero]
    [Decidable isMinusOne] (c : Call) : Call :=
  if attr = invalidOnZero then if isZero then .null else c
  else if attr = invalidOnMinusOne then if isMinusOne then .null else c
  else c

/-- The string as it is to be stored. -/
def stored (maxLen : ℕ) (v : Bytes) : Except Failure Bytes :=
  if 0 < maxLen ∧ maxLen < v.length then
    match adjust_size_utf8 v maxLen with
    | none => .error .outside
    | some n => .ok (v.take n)
  else .ok v

/-- What the `switch` of `operator<<` binds. -/
def Entry.call {δ : Type} (e : Entry δ) (name : String) (d : δ) : Except Failure Call :=
  match e.source with
  | .bool get => .ok (.bool (get d))
  | .double get => .ok (.f64 (get d))
  | .int get => .ok (checked e.attr (get d = 0) (get d = -1) (.i32 (get d)))
  | .short get => .ok (.i32 ((get d).signExtend 32))
  | .string get maxLen => do
    let sv ← stored maxLen (get d)
    return if e.attr = invalidOnZero ∧ sv = [] then .null else .str (chars sv)
  | .time get => .ok (checked e.attr (get d = 0) (get d = -1) (.u32 (BitVec.ofInt 32 (get d))))
  | .uint get =>
    -- a zero is not looked for here
    .ok (if e.attr = invalidOnMinusOne ∧ get d = -1 then .null else .u32 (get d))
  | .other type => .error (.invalidMapping name type)

/-- The name of a member that takes part. -/
def Entry.mapped {δ : Type} (e : Entry δ) : Option (List Char) := e.nameV2.filter (· ≠ [])

/-- One turn of `operator<<`: the parameter and what is bound to it. -/
def Entry.bind {δ : Type} (e : Entry δ) (name : String) (d : δ) :
    Except Failure (Option (List Char × Call)) :=
  match e.mapped with
  | none => .ok none
  | some field => (e.call name d).map fun c => some (':' :: field, c)

/-- `mysql_stmt::operator<<`. -/
def bindEvent {δ : Type} (type : ℕ) (info : Option (EventInfo δ)) (d : δ) :
    Except Failure (List (List Char × Call)) :=
  match info with
  | none => .error (.noMapping type)
  | some info => (info.mapping.mapM fun e : Entry δ => e.bind info.name d).map List.reduceOption

/-! ## What a member holds -/

/-- What a member of one of the types with invalid values holds. -/
inductive Value where
  | int (v : BitVec 32)
  | uint (v : BitVec 32)
  | time (t : ℤ)
  | string (maxLen : ℕ) (s : Bytes)
  deriving DecidableEq

def Source.value {δ : Type} (d : δ) : Source δ → Option Value
  | .int get => some (.int (get d))
  | .uint get => some (.uint (get d))
  | .time get => some (.time (get d))
  | .string get maxLen => some (.string maxLen (get d))
  | _ => none

/-- The value is the one that the attribute is about. -/
def Flagged (attr : BitVec 32) (isZero isMinusOne : Prop) : Prop :=
  attr = invalidOnZero ∧ isZero ∨ attr = invalidOnMinusOne ∧ isMinusOne

namespace Value

/-- The invalid values of the attributes. -/
def Invalid (attr : BitVec 32) : Value → Prop
  | int v | uint v => Flagged attr (v = 0) (v = -1)
  | time t => Flagged attr (t = 0) (t = -1)
  | string _ s => attr = invalidOnZero ∧ s = []

/-- As much of the string as the column has room for, in whole characters. -/
def Cut (maxLen : ℕ) (s sv : Bytes) : Prop :=
  if 0 < maxLen ∧ maxLen < s.length then
    ∃ k ≤ maxLen, Boundary s k ∧ (∀ j ≤ maxLen, Boundary s j → j ≤ k) ∧ sv = s.take k
  else sv = s

/-- What is bound carries the value. -/
def BoundAs (c : Call) : Value → Prop
  | int v => c = .i32 v
  | uint v => c = .u32 v
  | time t => ∃ v : BitVec 32, c = .u32 v ∧ (v.toNat : ℤ) = t
  | string maxLen s => ∃ sv, c = .str (chars sv) ∧ Cut maxLen s sv

end Value

/-! ## The checks -/

theorem invalidOnMinusOne_ne : invalidOnMinusOne ≠ invalidOnZero := by decide

theorem checked_eq_null {attr : BitVec 32} {isZero isMinusOne : Prop} [Decidable isZero]
    [Decidable isMinusOne] {c : Call} (hc : c ≠ .null) :
    checked attr isZero isMinusOne c = .null ↔ Flagged attr isZero isMinusOne := by
  unfold checked Flagged
  split
  · rename_i hzero
    subst hzero
    simp [hc, invalidOnMinusOne_ne.symm]
  split
  · rename_i hone
    subst hone
    simp [hc, invalidOnMinusOne_ne]
  · rename_i hzero hone
    simp [hzero, hone, hc]

theorem checked_eq_self {attr : BitVec 32} {isZero isMinusOne : Prop} [Decidable isZero]
    [Decidable isMinusOne] {c : Call} (h : ¬ Flagged attr isZero isMinusOne) :
    checked attr isZero isMinusOne c = c := by
  obtain ⟨hzero, hone⟩ := not_or.mp h
  unfold checked
  split
  · rename_i hattr
    rw [if_neg]
    simpa using fun hz => hzero ⟨hattr, hz⟩
  split
  · rename_i hattr
    rw [if_neg]
    simpa using fun hm => hone ⟨hattr, hm⟩
  · rfl

/-! ## The cut -/

/-- The loop finds the last place at or in front of `s`, or there is none. -/
theorem back_cases {bs : Bytes} {s : ℕ} (hs : s < bs.length) :
    back bs s = none ∧ (∀ j ≤ s, ¬ Boundary bs j) ∨
      ∃ k, back bs s = some k ∧ k ≤ s ∧ Boundary bs k ∧ ∀ j ≤ s, Boundary bs j → j ≤ k := by
  induction s with
  | zero =>
    rw [back]
    split
    · rename_i hmask
      refine .inl ⟨rfl, ?_⟩
      intro j hj hb
      rw [Nat.le_zero.mp hj] at hb
      exact (boundary_iff hs).mp hb hmask
    · rename_i hmask
      exact .inr ⟨0, rfl, Nat.le_refl 0, (boundary_iff hs).mpr hmask, fun j hj _ => hj⟩
  | succ s ih =>
    rw [back]
    split
    · rename_i hmask
      have hnot : ¬ Boundary bs (s + 1) := fun hb => (boundary_iff hs).mp hb hmask
      rcases ih (by omega) with ⟨hnone, hall⟩ | ⟨k, hk, hle, hb, hlast⟩
      · refine .inl ⟨hnone, ?_⟩
        intro j hj hjb
        rcases Nat.le_succ_iff.mp hj with hlt | rfl
        · exact hall j hlt hjb
        · exact hnot hjb
      · refine .inr ⟨k, hk, by omega, hb, ?_⟩
        intro j hj hjb
        rcases Nat.le_succ_iff.mp hj with hlt | rfl
        · exact hlast j hlt hjb
        · exact absurd hjb hnot
    · rename_i hmask
      exact .inr ⟨s + 1, rfl, Nat.le_refl _, (boundary_iff hs).mpr hmask, fun j hj _ => hj⟩

/-- The string is stored as it is to be cut, unless there is no place to cut it. -/
theorem stored_cases (maxLen : ℕ) (s : Bytes) :
    stored maxLen s = .error .outside ∧ (0 < maxLen ∧ maxLen < s.length) ∧
        (∀ j ≤ maxLen, ¬ Boundary s j) ∨
      ∃ sv, stored maxLen s = .ok sv ∧ Value.Cut maxLen s sv := by
  by_cases hcut : 0 < maxLen ∧ maxLen < s.length
  · have hadjust : adjust_size_utf8 s maxLen = back s maxLen := by
      rw [adjust_size_utf8, if_neg (by omega), if_neg (by omega)]
    rcases back_cases hcut.2 with ⟨hnone, hall⟩ | ⟨k, hk, hle, hb, hlast⟩
    · exact .inl ⟨by rw [stored, if_pos hcut, hadjust, hnone], hcut, hall⟩
    · refine .inr ⟨s.take k, by rw [stored, if_pos hcut, hadjust, hk], ?_⟩
      rw [Value.Cut, if_pos hcut]
      exact ⟨k, hle, hb, hlast, rfl⟩
  · refine .inr ⟨s, by rw [stored, if_neg hcut], ?_⟩
    rw [Value.Cut, if_neg hcut]

end CentreonBroker.Mapping
