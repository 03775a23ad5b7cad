import CentreonBroker.Io.Data

/-!
# Writing an event to the wire

`serialize` goes through the mapping of the event's class, appends the bytes of
each member to the content of the packet being built, and each time the content
has grown past `0xffff` cuts it: a packet of exactly `0xffff` bytes leaves, the
excess starts the next one. What remains at the end is the last packet, and its
size, below `0xffff`, is how the reader knows it is the last.

The cutting is interleaved with the appending in the source. `serialize_eq`
takes the two apart: the packets are those of the whole payload cut at once.
-/

namespace CentreonBroker.Bbdo

open Bytes Io

/-- `BBDO_HEADER_SIZE`. -/
def headerSize : Nat := 16

/-- The size that announces another packet of the same event. -/
def maxPacketSize : Nat := 0xffff

/-! ## Checksum -/

/-- `crc_tbl`. -/
def crcTbl : List UInt16 :=
  [0x0000, 0x1081, 0x2102, 0x3183, 0x4204, 0x5285, 0x6306, 0x7387,
   0x8408, 0x9489, 0xa50a, 0xb58b, 0xc60c, 0xd68d, 0xe70e, 0xf78f]

/-- One nibble of the loop of `crc16_ccitt`. -/
def crcNibble (crc : UInt16) (c : UInt8) : UInt16 :=
  ((crc >>> 4) &&& 0x0fff) ^^^ crcTbl.getD ((crc ^^^ c.toUInt16) &&& 15).toNat 0

/-- `misc::crc16_ccitt`. -/
def crc16Ccitt (data : Bytes) : UInt16 :=
  ~~~ data.foldl (fun crc c => crcNibble (crcNibble crc c) (c >>> 4)) 0xffff

/-! ## Packets -/

/-- A packet header: checksum of the fourteen bytes after it, size, then the ids. -/
def header (size : UInt16) (i : Ids) : Bytes :=
  let body := htons size ++ (htonl i.event_id ++ (htonl i.source_id ++ htonl i.dest_id))
  htons (crc16Ccitt body) ++ body

/-- One packet: the header that announces the content, and the content. -/
def packet (i : Ids) (content : Bytes) : Bytes :=
  header (UInt16.ofNat content.length) i ++ content

@[simp] theorem length_header (size : UInt16) (i : Ids) : (header size i).length = headerSize := by
  simp [header, headerSize]

theorem length_packet (i : Ids) (content : Bytes) :
    (packet i content).length = headerSize + content.length := by
  rw [packet, List.length_append, length_header]

/--
The packet splitting loop: the packets that leave, and the content that stays
behind in the one being built.
-/
def splitPackets (i : Ids) (content : Bytes) : Bytes × Bytes :=
  if maxPacketSize ≤ content.length then
    let (out, rest) := splitPackets i (content.drop maxPacketSize)
    (packet i (content.take maxPacketSize) ++ out, rest)
  else ([], content)
termination_by content.length
decreasing_by
  rw [List.length_drop]
  have : 0 < maxPacketSize := by decide
  omega

/-! ## Members -/

/--
The bytes one member contributes: `get_boolean`, `get_double`, `get_integer`,
`get_short`, `get_string`, `get_timestamp` and `get_uint`. The other types fall
to the default branch of the switch and have none.
-/
def getValue : (t : SourceType) → t.Value → Option Bytes
  | .bool, (v : Bool) => some [if v then 1 else 0]
  -- `snprintf` into 32 bytes leaves at most 31 characters and its NUL
  | .double, (v : Bytes) => some (v.take 31 ++ [0])
  | .int, (v : Int32) => some (htonl v.toUInt32)
  | .short, (v : Int16) => some (htons v.toUInt16)
  | .string, (v : Bytes) => some (v ++ [0])
  | .time, (v : Int64) =>
    some (htonl (v.toUInt64 >>> 32).toUInt32 ++ htonl (v.toUInt64 &&& 0xffffffff).toUInt32)
  | .uint, (v : UInt32) => some (htonl v)
  | .ushort, _ => none
  | .ulong, _ => none

/-- The message of the default branch of the two switches. -/
def invalidMapping (name : String) (t : SourceType) : String :=
  "BBDO: invalid mapping for object of type '" ++ name ++ "': " ++ toString t.id ++
    " is not a known type ID"

/--
The loop of `serialize` over the mapping: `queue` holds the packets already cut,
`content` what the current one has so far.
-/
def serializeLoop (name : String) (i : Ids) :
    {m : List Entry} → Members m → Bytes → Bytes → Except String (Bytes × Bytes)
  | [], .nil, queue, content => .ok (queue, content)
  | e :: _, .cons v vs, queue, content =>
    if e.serialize then
      match getValue e.type v with
      | none => .error (invalidMapping name e.type)
      | some b =>
        let (out, rest) := splitPackets i (content ++ b)
        serializeLoop name i vs (queue ++ out) rest
    else
      let (out, rest) := splitPackets i content
      serializeLoop name i vs (queue ++ out) rest

/-- `serialize`. -/
def serialize {reg : Registry} (d : Data reg) : Except String Bytes :=
  match serializeLoop d.info.name d.ids d.members [] [] with
  | .error msg => .error msg
  | .ok (queue, content) => .ok (queue ++ packet d.ids content)

/-! ## The packets of a payload -/

/-- The bytes of the serialized members, one after the other. -/
def payload : {m : List Entry} → Members m → Option Bytes
  | [], .nil => some []
  | e :: _, .cons v vs =>
    if e.serialize then
      match getValue e.type v, payload vs with
      | some b, some p => some (b ++ p)
      | _, _ => none
    else payload vs

/-- The parts of `0xffff` bytes a payload is cut into. -/
def fullParts (p : Bytes) : List Bytes :=
  if maxPacketSize ≤ p.length then p.take maxPacketSize :: fullParts (p.drop maxPacketSize) else []
termination_by p.length
decreasing_by
  rw [List.length_drop]
  have : 0 < maxPacketSize := by decide
  omega

/-- What is left of a payload after its full parts. -/
def lastPart (p : Bytes) : Bytes :=
  if maxPacketSize ≤ p.length then lastPart (p.drop maxPacketSize) else p
termination_by p.length
decreasing_by
  rw [List.length_drop]
  have : 0 < maxPacketSize := by decide
  omega

/-- The packets of a payload, the last one being the only one below `0xffff`. -/
def packets (i : Ids) (p : Bytes) : List Bytes :=
  (fullParts p).map (packet i) ++ [packet i (lastPart p)]

theorem fullParts_of_lt {p : Bytes} (h : p.length < maxPacketSize) : fullParts p = [] := by
  rw [fullParts, if_neg (Nat.not_le.mpr h)]

theorem fullParts_of_le {p : Bytes} (h : maxPacketSize ≤ p.length) :
    fullParts p = p.take maxPacketSize :: fullParts (p.drop maxPacketSize) := by
  rw [fullParts, if_pos h]

theorem lastPart_of_lt {p : Bytes} (h : p.length < maxPacketSize) : lastPart p = p := by
  rw [lastPart, if_neg (Nat.not_le.mpr h)]

theorem lastPart_of_le {p : Bytes} (h : maxPacketSize ≤ p.length) :
    lastPart p = lastPart (p.drop maxPacketSize) := by
  rw [lastPart, if_pos h]

/-- A payload is its full parts followed by its last one. -/
theorem flatten_parts (p : Bytes) : (fullParts p).flatten ++ lastPart p = p := by
  induction p using fullParts.induct with
  | case1 p h ih =>
    rw [fullParts_of_le h, lastPart_of_le h, List.flatten_cons, List.append_assoc, ih,
      List.take_append_drop]
  | case2 p h =>
    rw [fullParts_of_lt (Nat.not_le.mp h), lastPart_of_lt (Nat.not_le.mp h)]
    rfl

theorem length_of_mem_fullParts {p part : Bytes} (h : part ∈ fullParts p) :
    part.length = maxPacketSize := by
  induction p using fullParts.induct with
  | case1 p hp ih =>
    rw [fullParts_of_le hp] at h
    rcases List.mem_cons.mp h with he | he
    · rw [he, List.length_take]; exact Nat.min_eq_left hp
    · exact ih he
  | case2 p hp => rw [fullParts_of_lt (Nat.not_le.mp hp)] at h; exact absurd h (by simp)

theorem length_lastPart (p : Bytes) : (lastPart p).length < maxPacketSize := by
  induction p using lastPart.induct with
  | case1 p h ih => rw [lastPart_of_le h]; exact ih
  | case2 p h => rw [lastPart_of_lt (Nat.not_le.mp h)]; exact Nat.not_le.mp h

/-- The splitting loop cuts what it is given the way the payload is cut. -/
theorem splitPackets_eq (i : Ids) (c : Bytes) :
    splitPackets i c = (((fullParts c).map (packet i)).flatten, lastPart c) := by
  induction c using fullParts.induct with
  | case1 c h ih =>
    rw [splitPackets, if_pos h, ih, fullParts_of_le h, lastPart_of_le h]
    rfl
  | case2 c h =>
    rw [splitPackets, if_neg h, fullParts_of_lt (Nat.not_le.mp h),
      lastPart_of_lt (Nat.not_le.mp h)]
    rfl

/-- Cutting as bytes arrive or cutting at the end makes the same full parts. -/
theorem fullParts_append (c x : Bytes) :
    fullParts (c ++ x) = fullParts c ++ fullParts (lastPart c ++ x) := by
  induction c using fullParts.induct with
  | case1 c h ih =>
    have hx : maxPacketSize ≤ (c ++ x).length := by rw [List.length_append]; omega
    rw [fullParts_of_le hx, fullParts_of_le h, lastPart_of_le h,
      List.take_append_of_le_length h, List.drop_append_of_le_length h, ih, List.cons_append]
  | case2 c h =>
    rw [fullParts_of_lt (Nat.not_le.mp h), lastPart_of_lt (Nat.not_le.mp h), List.nil_append]

/-- And leaves the same last part. -/
theorem lastPart_append (c x : Bytes) : lastPart (c ++ x) = lastPart (lastPart c ++ x) := by
  induction c using fullParts.induct with
  | case1 c h ih =>
    have hx : maxPacketSize ≤ (c ++ x).length := by rw [List.length_append]; omega
    rw [lastPart_of_le hx, List.drop_append_of_le_length h, ih, lastPart_of_le h]
  | case2 c h => rw [lastPart_of_lt (Nat.not_le.mp h)]

/-- The loop cuts what it has and what the remaining members bring as one payload. -/
theorem serializeLoop_eq {name : String} {i : Ids} : ∀ {m : List Entry} {vs : Members m} {p : Bytes},
    payload vs = some p → ∀ (queue c : Bytes), c.length < maxPacketSize →
    serializeLoop name i vs queue c =
      .ok (queue ++ ((fullParts (c ++ p)).map (packet i)).flatten, lastPart (c ++ p)) := by
  intro m
  induction m with
  | nil =>
    intro vs p hp queue c hc
    cases vs
    injection hp with hp
    subst hp
    rw [serializeLoop, List.append_nil, fullParts_of_lt hc, lastPart_of_lt hc]
    simp
  | cons e es ih =>
    intro vs p hp queue c hc
    cases vs with
    | cons v vs =>
      rw [payload] at hp
      rw [serializeLoop]
      by_cases he : e.serialize = true
      · rw [if_pos he] at hp ⊢
        split at hp
        · rename_i b q hb hq
          injection hp with hp
          subst hp
          -- what this member completes leaves now, the rest of the payload is cut by the induction
          rw [hb]
          dsimp only
          rw [splitPackets_eq]
          dsimp only
          rw [ih hq _ _ (length_lastPart _), ← List.append_assoc c b q,
            fullParts_append (c ++ b) q, lastPart_append (c ++ b) q, List.map_append,
            List.flatten_append, List.append_assoc]
        · exact absurd hp (by simp)
      · rw [if_neg he] at hp ⊢
        rw [splitPackets_eq, fullParts_of_lt hc, lastPart_of_lt hc]
        dsimp only
        rw [ih hp _ _ hc]
        simp

/-- **An event is written as the packets of its payload.** -/
theorem serialize_eq {reg : Registry} {d : Data reg} {p : Bytes} (h : payload d.members = some p) :
    serialize d = .ok (packets d.ids p).flatten := by
  have hc : ([] : Bytes).length < maxPacketSize := by decide
  rw [serialize, serializeLoop_eq h [] [] hc]
  simp [packets]

end CentreonBroker.Bbdo
