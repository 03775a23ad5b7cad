import Mathlib.Data.List.Nodup

/-!
# JSON values

A number is kept as it is written: what it stands for is a matter of who reads it. The members of an
object are in an order, and an object may have a name more than once, unless this is excluded.
-/

namespace CentreonBroker

inductive Json where
  | null
  | bool (b : Bool)
  | number (literal : List Char)
  | string (s : List Char)
  | array (items : List Json)
  | object (members : List (List Char × Json))

namespace Json

mutual

/-- No object, at any depth, has a name more than once. -/
def Distinct : Json → Prop
  | .array items => DistinctItems items
  | .object members => (members.map Prod.fst).Nodup ∧ DistinctMembers members
  | _ => True

def DistinctItems : List Json → Prop
  | [] => True
  | j :: items => j.Distinct ∧ DistinctItems items

def DistinctMembers : List (List Char × Json) → Prop
  | [] => True
  | (_, j) :: members => j.Distinct ∧ DistinctMembers members

end

mutual

/-- How often `null` is in a value, at any depth. -/
def nulls : Json → Nat
  | .null => 1
  | .array items => nullsItems items
  | .object members => nullsMembers members
  | _ => 0

def nullsItems : List Json → Nat
  | [] => 0
  | j :: items => j.nulls + nullsItems items

def nullsMembers : List (List Char × Json) → Nat
  | [] => 0
  | (_, j) :: members => j.nulls + nullsMembers members

end

mutual

/-- A property of all names of members, at any depth. -/
def Names (P : List Char → Prop) : Json → Prop
  | .array items => NamesItems P items
  | .object members => NamesMembers P members
  | _ => True

def NamesItems (P : List Char → Prop) : List Json → Prop
  | [] => True
  | j :: items => j.Names P ∧ NamesItems P items

def NamesMembers (P : List Char → Prop) : List (List Char × Json) → Prop
  | [] => True
  | (k, j) :: members => P k ∧ j.Names P ∧ NamesMembers P members

end

end Json

/-- A value whose objects are maps from names. -/
structure Document where
  json : Json
  distinct : json.Distinct

end CentreonBroker
