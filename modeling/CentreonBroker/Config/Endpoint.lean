import Mathlib.Data.List.Lex
import Mathlib.Data.String.Basic
import Mathlib.Data.Int.Order.Basic

/-!
# The configuration of an endpoint

`operator<` compares the members one by one, so that two configurations are equivalent in a
`std::map` exactly when `operator==` says that they are equal. Neither looks at the direction,
input or output, that the endpoint was configured for.

Sets are sorted lists without duplicates, and maps are lists sorted by their keys.
-/

namespace CentreonBroker.Config

inductive IoType where
  | input
  | output
  deriving DecidableEq, Repr

/-- `config::endpoint`. `J` is the type of JSON values. -/
structure Endpoint (J : Type) where
  io_type : IoType
  buffering_timeout : ℤ
  failovers : List String
  name : String
  params : List (String × String)
  read_filters : List String
  read_timeout : ℤ
  retry_interval : ℤ
  type : String
  write_filters : List String
  cache_enabled : Bool
  cfg : J
  deriving DecidableEq

/-- A member decides, or leaves it to what comes next. -/
def byMember {α : Type} [LinearOrder α] (x y : α) (next : Bool) : Bool :=
  if x ≠ y then decide (x < y) else next

/-- The parameters, one by one. -/
def paramsLt : List (String × String) → List (String × String) → Bool
  | [], [] => false
  | [], _ :: _ => true
  | _ :: _, [] => false
  | (k₁, v₁) :: it1, (k₂, v₂) :: it2 => byMember k₁ k₂ (byMember v₁ v₂ (paramsLt it1 it2))

section Order

variable {α : Type} [LinearOrder α]

/-- Nobody is first exactly when the member is the same, and what comes next is equivalent. -/
theorem byMember_equiv (x y : α) (a b : Bool) :
    (byMember x y a = false ∧ byMember y x b = false) ↔ x = y ∧ a = false ∧ b = false := by
  unfold byMember
  by_cases hxy : x = y
  · subst hxy
    simp
  · rw [if_pos hxy, if_pos (Ne.symm hxy)]
    constructor
    · rintro ⟨hx, hy⟩
      exact absurd (le_antisymm (not_lt.mp (of_decide_eq_false hy))
        (not_lt.mp (of_decide_eq_false hx))) hxy
    · rintro ⟨heq, -⟩
      exact absurd heq hxy

end Order

theorem paramsLt_equiv (p q : List (String × String)) :
    (paramsLt p q = false ∧ paramsLt q p = false) ↔ p = q := by
  induction p generalizing q with
  | nil => cases q <;> simp [paramsLt]
  | cons e p ih =>
    cases q with
    | nil => simp [paramsLt]
    | cons f q =>
      obtain ⟨k₁, v₁⟩ := e
      obtain ⟨k₂, v₂⟩ := f
      rw [paramsLt, paramsLt, byMember_equiv, byMember_equiv, ih, List.cons.injEq, Prod.mk.injEq,
        and_assoc]

namespace Endpoint

variable {J : Type} [LinearOrder J]

/-- `operator==`. -/
def eqv (e other : Endpoint J) : Bool :=
  e.type == other.type && e.buffering_timeout == other.buffering_timeout &&
    e.read_timeout == other.read_timeout && e.retry_interval == other.retry_interval &&
    e.name == other.name && e.failovers == other.failovers &&
    e.read_filters == other.read_filters && e.write_filters == other.write_filters &&
    e.params == other.params && e.cache_enabled == other.cache_enabled && e.cfg == other.cfg

/-- `operator<`. -/
def lt (e other : Endpoint J) : Bool :=
  byMember e.type other.type <|
  byMember e.buffering_timeout other.buffering_timeout <|
  byMember e.read_timeout other.read_timeout <|
  byMember e.retry_interval other.retry_interval <|
  byMember e.name other.name <|
  byMember e.failovers other.failovers <|
  byMember e.read_filters other.read_filters <|
  byMember e.write_filters other.write_filters <|
  byMember e.cache_enabled other.cache_enabled <|
  byMember e.cfg other.cfg <|
  paramsLt e.params other.params

/-- The keys that a `std::map` takes for one. -/
def equiv (e other : Endpoint J) : Bool := !e.lt other && !other.lt e

theorem equiv_eq_eqv (e other : Endpoint J) : e.equiv other = e.eqv other := by
  rw [Bool.eq_iff_iff]
  unfold equiv lt eqv
  rw [Bool.and_eq_true, Bool.not_eq_true', Bool.not_eq_true']
  simp only [byMember_equiv, paramsLt_equiv, Bool.and_eq_true, beq_iff_eq]
  tauto

theorem equiv_iff {e other : Endpoint J} :
    e.equiv other = true ↔ e = { other with io_type := e.io_type } := by
  rw [equiv_eq_eqv]
  obtain ⟨⟩ := e
  simp [eqv]
  tauto

theorem equiv_refl (e : Endpoint J) : e.equiv e = true := equiv_iff.mpr rfl

theorem equiv_comm (e other : Endpoint J) : e.equiv other = other.equiv e := by
  unfold equiv
  exact Bool.and_comm ..

theorem equiv_trans {a b c : Endpoint J} (hab : a.equiv b = true) (hbc : b.equiv c = true) :
    a.equiv c = true := by
  rw [equiv_iff] at hab hbc ⊢
  rw [hab, hbc]

theorem name_of_equiv {e other : Endpoint J} (h : e.equiv other = true) : e.name = other.name := by
  rw [equiv_iff.mp h]

end Endpoint

end CentreonBroker.Config
