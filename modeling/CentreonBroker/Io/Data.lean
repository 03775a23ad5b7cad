import CentreonBroker.Lib.Bytes

/-!
# Events, their classes and the registry

An event is an object of some class `T : io::data`. What the generic code knows
of `T` is its mapping, the null-terminated array of `mapping::entry` that names
the members to go through and the C++ type of each. Here a class is that list,
the members of an object are indexed by it, and so an object whose members do
not have the types its class declares cannot be written down.

The registry is `io::events`, seen through the one question the stream asks it:
`get_event_info`.
-/

namespace CentreonBroker.Io

open Bytes

/--
`mapping::source::source_type`, less `UNKNOWN`: an entry of that type is the
null entry that ends a mapping, and a list needs none.
-/
inductive SourceType where
  | bool
  | double
  | int
  | short
  | string
  | time
  | uint
  | ushort
  | ulong
  deriving DecidableEq, Repr

/-- The value of the C++ enumeration, which is what an error message shows. -/
def SourceType.id : SourceType → Nat
  | bool => 1
  | double => 2
  | int => 3
  | short => 4
  | string => 5
  | time => 6
  | uint => 7
  | ushort => 8
  | ulong => 9

/--
What a member of each type holds. A double is taken as the text that prints it;
a timestamp is the `time_t` it wraps.
-/
@[reducible] def SourceType.Value : SourceType → Type
  | bool => Bool
  | double => Bytes
  | int => Int32
  | short => Int16
  | string => Bytes
  | time => Int64
  | uint => UInt32
  | ushort => UInt16
  | ulong => UInt64

/-- `mapping::entry`, as far as the stream reads it. -/
structure Entry where
  type : SourceType
  /-- `get_serialize()`. -/
  serialize : Bool
  deriving DecidableEq, Repr

/-- The mapped members of an object, one for each entry of its class's mapping. -/
inductive Members : List Entry → Type where
  | nil : Members []
  | cons {e : Entry} {es : List Entry} (v : e.type.Value) (rest : Members es) : Members (e :: es)

/-- `io::event_info`. -/
structure EventInfo where
  /-- `get_name()`. -/
  name : String
  /-- `get_mapping()`, up to its null entry. -/
  mapping : List Entry
  /-- What `get_operations().constructor()` builds, `none` when it gives no object. -/
  constructor : Option (Members mapping)

/-- `io::events::get_event_info`: the class registered under a type, if there is one. -/
abbrev Registry := UInt32 → Option EventInfo

/-- The three numbers a packet carries about its event. -/
structure Ids where
  event_id : UInt32
  source_id : UInt32
  dest_id : UInt32
  deriving DecidableEq, Repr

/-- An `io::data` whose class is registered. -/
structure Data (reg : Registry) where
  ids : Ids
  info : EventInfo
  /-- The class is the one the registry has for `type()`. -/
  registered : reg ids.event_id = some info
  members : Members info.mapping

/-- Two objects of one class with the same numbers and the same members are the same event. -/
theorem Data.ext {reg : Registry} {d d' : Data reg} (hi : d.ids = d'.ids)
    (hc : d.info = d'.info) (hm : HEq d.members d'.members) : d = d' := by
  cases d with
  | mk i c r m =>
    cases d' with
    | mk i' c' r' m' =>
      cases hi
      cases hc
      cases hm
      rfl

/-- What is left of an object's members once those that are not serialized are forgotten. -/
def Members.reset : {m : List Entry} → Members m → Members m → Members m
  | [], .nil, .nil => .nil
  | e :: _, .cons d ds, .cons v vs => .cons (if e.serialize then v else d) (Members.reset ds vs)

/-- With nothing left out of the serialization there is nothing to forget. -/
theorem Members.reset_eq {m : List Entry} (h : ∀ e ∈ m, e.serialize = true) :
    ∀ (d v : Members m), d.reset v = v := by
  induction m with
  | nil => intro d v; cases d; cases v; rfl
  | cons e es ih =>
    intro d v
    cases d with
    | cons d ds =>
      cases v with
      | cons v vs =>
        rw [Members.reset, if_pos (h e List.mem_cons_self),
          ih (fun e' he' => h e' (List.mem_cons_of_mem _ he'))]

end CentreonBroker.Io
