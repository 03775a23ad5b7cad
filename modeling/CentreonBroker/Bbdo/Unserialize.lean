import CentreonBroker.Bbdo.Serialize

/-!
# Reading an event back

`unserialize` walks the same mapping as `serialize`, over a buffer and a count
of the bytes left in it. The count is a `uint32_t`, whatever the buffer holds:
a content of `2 ^ 32` bytes or more is announced modulo `2 ^ 32`. The readers
below take both, as the source does.

`unserializeLoop_payload` is the half of the round trip that is about members:
below that size, what `getValue` wrote is what the readers find.
-/

namespace CentreonBroker.Bbdo

open Bytes Io

/-! ## One member -/

/-- `set_boolean`. -/
def setBoolean (data : Bytes) (size : UInt32) : Except String (Bool × UInt32) :=
  if size = 0 then .error "cannot extract boolean value: 0 bytes left in packet"
  else .ok (data.headD 0 != 0, 1)

/-- `set_double`. The quoted NUL of the source's message ends the text that is streamed there. -/
def setDouble (data : Bytes) (size : UInt32) : Except String (Bytes × UInt32) :=
  let len := UInt32.ofNat (strlen data)
  if size ≤ len then
    .error ("cannot extract double value: not terminating '" ++ toString size ++
      " bytes of packet")
  else .ok (data.take (strlen data), len + 1)

/-- `set_integer`. -/
def setInteger (data : Bytes) (size : UInt32) : Except String (Int32 × UInt32) :=
  if size < 4 then
    .error ("BBDO: cannot extract integer value: " ++ toString size ++ " bytes left in packet")
  else .ok ((ntohl data).toInt32, 4)

/-- `set_short`. -/
def setShort (data : Bytes) (size : UInt32) : Except String (Int16 × UInt32) :=
  if size < 2 then
    .error ("BBDO: cannot extract short value: " ++ toString size ++ " bytes left in packet")
  else .ok ((ntohs data).toInt16, 2)

/-- `set_string`. -/
def setString (data : Bytes) (size : UInt32) : Except String (Bytes × UInt32) :=
  let len := UInt32.ofNat (strlen data)
  if size ≤ len then
    .error ("BBDO: cannot extract string value: no terminating '\\0' in remaining " ++
      toString size ++ " bytes of packet")
  else .ok (data.take (strlen data), len + 1)

/-- `set_timestamp`. -/
def setTimestamp (data : Bytes) (size : UInt32) : Except String (Int64 × UInt32) :=
  if size < 8 then
    .error ("BBDO: cannot extract timestamp value: " ++ toString size ++ " bytes left in packet")
  else
    let val := (ntohl data).toUInt64 <<< 32 ||| (ntohl (data.drop 4)).toUInt64
    .ok (val.toInt64, 8)

/-- `set_uint`. -/
def setUint (data : Bytes) (size : UInt32) : Except String (UInt32 × UInt32) :=
  if size < 4 then
    .error ("BBDO: cannot extract uint32_teger value: " ++ toString size ++
      " bytes left in packet")
  else .ok (ntohl data, 4)

/-- The switch over the type of an entry. -/
def setValue (name : String) : (t : SourceType) → Bytes → UInt32 → Except String (t.Value × UInt32)
  | .bool => setBoolean
  | .double => setDouble
  | .int => setInteger
  | .short => setShort
  | .string => setString
  | .time => setTimestamp
  | .uint => setUint
  | .ushort => fun _ _ => .error (invalidMapping name .ushort)
  | .ulong => fun _ _ => .error (invalidMapping name .ulong)

/-! ## A whole object -/

/-- The loop over the mapping, on an object freshly built with the members `ds`. -/
def unserializeLoop (name : String) :
    {m : List Entry} → Members m → Bytes → UInt32 → Except String (Members m)
  | [], .nil, _, _ => .ok .nil
  | e :: _, .cons d ds, buffer, size =>
    if e.serialize then
      match setValue name e.type buffer size with
      | .error msg => .error msg
      | .ok (v, rb) =>
        match unserializeLoop name ds (buffer.drop rb.toNat) (size - rb) with
        | .error msg => .error msg
        | .ok vs => .ok (.cons v vs)
    else
      match unserializeLoop name ds buffer size with
      | .error msg => .error msg
      | .ok vs => .ok (.cons d vs)

/-- `unserialize`: no event when the type is not registered. -/
def unserialize (reg : Registry) (i : Ids) (buffer : Bytes) (size : UInt32) :
    Except String (Option (Data reg)) :=
  match h : reg i.event_id with
  | none => .ok none
  | some info =>
    match info.constructor with
    | none =>
      .error ("BBDO: cannot create object of ID " ++ toString i.event_id ++
        " whereas it has been registered")
    | some ds =>
      match unserializeLoop info.name ds buffer size with
      | .error msg => .error msg
      | .ok members => .ok (some ⟨i, info, h, members⟩)

/-! ## The round trip of the members -/

/-- A value its own reader can delimit: no NUL in a text, and a double that fits its buffer. -/
def Clean : (t : SourceType) → t.Value → Prop
  | .double, (v : Bytes) => 0 ∉ v ∧ v.length ≤ 31
  | .string, (v : Bytes) => 0 ∉ v
  | _, _ => True

/-- Every serialized member is clean. -/
def Members.Clean : {m : List Entry} → Members m → Prop
  | [], .nil => True
  | e :: _, .cons v vs => (e.serialize = true → Bbdo.Clean e.type v) ∧ Members.Clean vs

/-- The two halves a timestamp is sent as make it up again. -/
theorem join_halves (x : UInt64) :
    ((x >>> 32).toUInt32.toUInt64 <<< 32) ||| (x &&& 0xffffffff).toUInt32.toUInt64 = x := by
  apply UInt64.toNat_inj.mp
  simp only [UInt64.toNat_or, UInt64.toNat_shiftLeft, UInt32.toNat_toUInt64, UInt64.toNat_toUInt32,
    UInt64.toNat_shiftRight, UInt64.toNat_and]
  have hx := x.toNat_lt
  have h1 : (UInt64.toNat 32) % 64 = 32 := by decide
  have h2 : UInt64.toNat 0xffffffff = 2 ^ 32 - 1 := by decide
  rw [h1, h2, Nat.and_two_pow_sub_one_eq_mod, Nat.mod_mod, Nat.shiftRight_eq_div_pow]
  have h3 : x.toNat / 2 ^ 32 % 2 ^ 32 = x.toNat / 2 ^ 32 := Nat.mod_eq_of_lt (by omega)
  have h4 : x.toNat / 2 ^ 32 * 2 ^ 32 % 2 ^ 64 = 2 ^ 32 * (x.toNat / 2 ^ 32) := by omega
  rw [h3, Nat.shiftLeft_eq, h4, ← Nat.two_pow_add_eq_or_of_lt (Nat.mod_lt _ (by decide))]
  omega

/-- A count that does not wrap compares as the number of bytes it counts. -/
theorem le_of_count {size n : UInt32} {k : Nat} (hs : size.toNat = k) (hn : n.toNat ≤ k) :
    ¬ size < n := by
  rw [UInt32.lt_iff_toNat_lt]
  omega

/-- The reader of a text stops where the text does. -/
theorem text_read {v rest : Bytes} {size : UInt32} (h : (0 : UInt8) ∉ v)
    (hs : size.toNat = (v ++ [0] ++ rest).length) :
    ¬ size ≤ UInt32.ofNat (strlen (v ++ [0] ++ rest)) ∧
      (v ++ [0] ++ rest).take (strlen (v ++ [0] ++ rest)) = v ∧
      (UInt32.ofNat (strlen (v ++ [0] ++ rest)) + 1).toNat = (v ++ [0]).length := by
  have hv : v ++ [0] ++ rest = v ++ 0 :: rest := by simp
  have hlt := size.toNat_lt
  rw [hv] at hs ⊢
  have hl : (v ++ 0 :: rest).length = v.length + (rest.length + 1) := by simp
  have hn : (UInt32.ofNat v.length).toNat = v.length := by
    rw [UInt32.toNat_ofNat']
    exact Nat.mod_eq_of_lt (by omega)
  refine ⟨?_, take_strlen_append h rest, ?_⟩
  · rw [strlen_append h, UInt32.le_iff_toNat_le, hn]
    omega
  · rw [strlen_append h, UInt32.toNat_add, hn, List.length_append]
    exact Nat.mod_eq_of_lt (by show v.length + 1 < 2 ^ 32; omega)

theorem setBoolean_ok (v : Bool) {rest : Bytes} {size : UInt32}
    (hs : size.toNat = ([if v then (1 : UInt8) else 0] ++ rest).length) :
    setBoolean ([if v then (1 : UInt8) else 0] ++ rest) size = .ok (v, 1) := by
  have h0 : ¬ size = 0 := by
    intro he
    rw [he] at hs
    exact absurd hs (by simp)
  rw [setBoolean, if_neg h0]
  cases v <;> rfl

theorem setDouble_ok {v rest : Bytes} {size : UInt32} (h : (0 : UInt8) ∉ v)
    (hs : size.toNat = (v ++ [0] ++ rest).length) :
    ∃ rb : UInt32, setDouble (v ++ [0] ++ rest) size = .ok (v, rb) ∧
      rb.toNat = (v ++ [0]).length := by
  obtain ⟨h1, h2, h3⟩ := text_read h hs
  refine ⟨_, ?_, h3⟩
  rw [setDouble, if_neg h1, h2]

theorem setString_ok {v rest : Bytes} {size : UInt32} (h : (0 : UInt8) ∉ v)
    (hs : size.toNat = (v ++ [0] ++ rest).length) :
    ∃ rb : UInt32, setString (v ++ [0] ++ rest) size = .ok (v, rb) ∧
      rb.toNat = (v ++ [0]).length := by
  obtain ⟨h1, h2, h3⟩ := text_read h hs
  refine ⟨_, ?_, h3⟩
  rw [setString, if_neg h1, h2]

theorem setInteger_ok (v : Int32) {rest : Bytes} {size : UInt32}
    (hs : size.toNat = (htonl v.toUInt32 ++ rest).length) :
    setInteger (htonl v.toUInt32 ++ rest) size = .ok (v, 4) := by
  have h4 : ¬ size < 4 := le_of_count hs (by simp)
  rw [setInteger, if_neg h4, ntohl_htonl, Int32.toInt32_toUInt32]

theorem setShort_ok (v : Int16) {rest : Bytes} {size : UInt32}
    (hs : size.toNat = (htons v.toUInt16 ++ rest).length) :
    setShort (htons v.toUInt16 ++ rest) size = .ok (v, 2) := by
  have h2 : ¬ size < 2 := le_of_count hs (by simp)
  rw [setShort, if_neg h2, ntohs_htons, Int16.toInt16_toUInt16]

theorem setUint_ok (v : UInt32) {rest : Bytes} {size : UInt32}
    (hs : size.toNat = (htonl v ++ rest).length) : setUint (htonl v ++ rest) size = .ok (v, 4) := by
  have h4 : ¬ size < 4 := le_of_count hs (by simp)
  rw [setUint, if_neg h4, ntohl_htonl]

theorem setTimestamp_ok (v : Int64) {rest : Bytes} {size : UInt32}
    (hs : size.toNat = (htonl (v.toUInt64 >>> 32).toUInt32 ++
      htonl (v.toUInt64 &&& 0xffffffff).toUInt32 ++ rest).length) :
    setTimestamp (htonl (v.toUInt64 >>> 32).toUInt32 ++
      htonl (v.toUInt64 &&& 0xffffffff).toUInt32 ++ rest) size = .ok (v, 8) := by
  have h8 : ¬ size < 8 := le_of_count hs (by simp; omega)
  rw [setTimestamp, if_neg h8, List.append_assoc, List.drop_left' (length_htonl _),
    ntohl_htonl, ntohl_htonl, join_halves]
  dsimp only
  rw [Int64.toInt64_toUInt64]

/-- **One member comes back**, and the reader moves past exactly its bytes. -/
theorem setValue_getValue {name : String} {t : SourceType} {v : t.Value} {b rest : Bytes}
    {size : UInt32} (hb : getValue t v = some b) (hv : Clean t v)
    (hs : size.toNat = (b ++ rest).length) :
    ∃ rb : UInt32, setValue name t (b ++ rest) size = .ok (v, rb) ∧ rb.toNat = b.length := by
  cases t with
  | bool => injection hb with hb; subst hb; exact ⟨1, setBoolean_ok v hs, rfl⟩
  | double =>
    injection hb with hb
    subst hb
    rw [List.take_of_length_le hv.2] at hs ⊢
    exact setDouble_ok hv.1 hs
  | int => injection hb with hb; subst hb; exact ⟨4, setInteger_ok v hs, by simp⟩
  | short => injection hb with hb; subst hb; exact ⟨2, setShort_ok v hs, by simp⟩
  | string => injection hb with hb; subst hb; exact setString_ok hv hs
  | time => injection hb with hb; subst hb; exact ⟨8, setTimestamp_ok v hs, by simp⟩
  | uint => injection hb with hb; subst hb; exact ⟨4, setUint_ok v hs, by simp⟩
  | ushort => exact absurd hb (by simp [getValue])
  | ulong => exact absurd hb (by simp [getValue])

/-- **All the members come back**, those that were not sent as the constructor leaves them. -/
theorem unserializeLoop_payload {name : String} : ∀ {m : List Entry} {ds vs : Members m}
    {p rest : Bytes} {size : UInt32}, payload vs = some p → Members.Clean vs →
    size.toNat = (p ++ rest).length →
    unserializeLoop name ds (p ++ rest) size = .ok (ds.reset vs) := by
  intro m
  induction m with
  | nil => intro ds vs p rest size _ _ _; cases ds; cases vs; rfl
  | cons e es ih =>
    intro ds vs p rest size hp hclean hs
    cases ds with
    | cons d ds =>
      cases vs with
      | cons v vs =>
        rw [payload] at hp
        rw [unserializeLoop, Members.reset]
        by_cases he : e.serialize = true
        · rw [if_pos he] at hp ⊢
          split at hp
          · rename_i b q hb hq
            injection hp with hp
            subst hp
            rw [List.append_assoc] at hs ⊢
            obtain ⟨rb, h1, h2⟩ := @setValue_getValue name _ _ _ _ _ hb (hclean.1 he) hs
            have hle : rb ≤ size := by
              rw [UInt32.le_iff_toNat_le, h2, hs, List.length_append]
              omega
            have hrest : (size - rb).toNat = (q ++ rest).length := by
              rw [UInt32.toNat_sub_of_le _ _ hle, hs, h2, List.length_append]
              omega
            rw [h1]
            dsimp only
            rw [h2, List.drop_left' rfl, ih hq hclean.2 hrest, if_pos he]
          · exact absurd hp (by simp)
        · rw [if_neg he] at hp ⊢
          rw [ih hp hclean.2 hs, if_neg he]

end CentreonBroker.Bbdo
