import CentreonBroker.Bbdo.Reassembly

/-!
# What is written is read

Events written one after the other come back in the same order, each with its
type, its source and its destination, and the stream is left as it was. What
comes back of the members is what was sent: an entry of a mapping may say that
its member is not to be serialized, and then the object read has the value its
constructor gave it (`asSent`).
-/

namespace CentreonBroker.Bbdo

open Bytes Io

variable {reg : Registry}

/-- The event a reader builds from what is sent of one. -/
def asSent (d : Data reg) : Data reg :=
  { d with
    members :=
      match d.info.constructor with
      | some ds => ds.reset d.members
      | none => d.members }

/-- With all its members serialized an event is sent entirely. -/
theorem asSent_eq {d : Data reg} (h : ∀ e ∈ d.info.mapping, e.serialize = true) :
    asSent d = d := by
  refine Data.ext rfl rfl (heq_of_eq ?_)
  show (match d.info.constructor with
    | some ds => ds.reset d.members
    | none => d.members) = d.members
  cases d.info.constructor with
  | some ds => exact Members.reset_eq h ds d.members
  | none => rfl

/-- What an event needs to cross the wire. -/
structure Sendable (d : Data reg) : Prop where
  /-- Its class can be instantiated. -/
  constructed : d.info.constructor.isSome
  /-- The types of its serialized members are those the stream knows. -/
  typed : ∀ e ∈ d.info.mapping, e.serialize = true → e.type ≠ .ushort ∧ e.type ≠ .ulong
  clean : Members.Clean d.members
  /-- The size of the payload fits the count of the reader. -/
  small : ∀ p, payload d.members = some p → p.length < 2 ^ 32

theorem getValue_isSome {t : SourceType} (h : t ≠ .ushort ∧ t ≠ .ulong) (v : t.Value) :
    ∃ b, getValue t v = some b := by
  cases t with
  | ushort => exact absurd rfl h.1
  | ulong => exact absurd rfl h.2
  | _ => exact ⟨_, rfl⟩

theorem payload_isSome : ∀ {m : List Entry},
    (∀ e ∈ m, e.serialize = true → e.type ≠ .ushort ∧ e.type ≠ .ulong) →
    ∀ (vs : Members m), ∃ p, payload vs = some p := by
  intro m
  induction m with
  | nil => intro _ vs; cases vs; exact ⟨[], rfl⟩
  | cons e es ih =>
    intro h vs
    cases vs with
    | cons v vs =>
      obtain ⟨p, hp⟩ := ih (fun e' he' => h e' (List.mem_cons_of_mem _ he')) vs
      rw [payload]
      by_cases he : e.serialize = true
      · obtain ⟨b, hb⟩ := getValue_isSome (h e List.mem_cons_self he) v
        rw [if_pos he, hb, hp]
        exact ⟨b ++ p, rfl⟩
      · rw [if_neg he]
        exact ⟨p, hp⟩

/-! ## One event -/

/-- `unserialize`, for a class that is registered and that can be instantiated. -/
theorem unserialize_eq {i : Ids} {info : EventInfo} (hr : reg i.event_id = some info)
    {ds : Members info.mapping} (hc : info.constructor = some ds) (buffer : Bytes)
    (size : UInt32) :
    unserialize reg i buffer size =
      match unserializeLoop info.name ds buffer size with
      | .error msg => .error msg
      | .ok members => .ok (some ⟨i, info, hr, members⟩) := by
  rw [unserialize]
  split
  · rename_i h; rw [hr] at h; cases h
  · rename_i info' h
    obtain rfl : info = info' := Option.some.inj (hr.symm.trans h)
    cases hm : unserializeLoop info.name ds buffer size with
    | error msg => simp only [hc, hm]
    | ok members => simp only [hc, hm]

/-- **An event comes back from its payload.** -/
theorem finish_payload {d : Data reg} (h : Sendable d) {p : Bytes}
    (hp : payload d.members = some p) : finish reg d.ids p = .event (asSent d) := by
  obtain ⟨ds, hc⟩ := Option.isSome_iff_exists.mp h.constructed
  have hsize : (UInt32.ofNat p.length).toNat = (p ++ []).length := by
    rw [List.append_nil, UInt32.toNat_ofNat']
    exact Nat.mod_eq_of_lt (h.small p hp)
  have hl := @unserializeLoop_payload d.info.name _ ds _ _ _ _ hp h.clean hsize
  rw [List.append_nil] at hl
  have hd : asSent d = ⟨d.ids, d.info, d.registered, ds.reset d.members⟩ := by
    rw [asSent, hc]
  rw [finish, unserialize_eq d.registered hc, hl, hd]

/-! ## All the events -/

/-- An event of which nothing is missing. -/
def whole (i : Ids) (p : Bytes) : Remnant := ⟨i, p, fullParts p, List.Sublist.refl _, true⟩

theorem wire_append (ps qs : List Part) : wire (ps ++ qs) = wire ps ++ wire qs := by
  rw [wire, List.map_append, List.flatten_append, wire, wire]

theorem wire_fullPackets {i : Ids} {cs : List Bytes} (h : ∀ c ∈ cs, c.length = maxPacketSize) :
    wire (fullPackets i cs h) = (cs.map (packet i)).flatten := by
  rw [wire, fullPackets, List.map_pmap]
  show (cs.pmap (fun c _ => packet i c) h).flatten = _
  rw [List.pmap_eq_map]

theorem wire_whole (i : Ids) (p : Bytes) : wire (whole i p).parts = (packets i p).flatten := by
  have hl : (whole i p).last = true := rfl
  rw [Remnant.parts, if_pos hl, wire_append, wire_fullPackets, packets, List.flatten_append]
  rfl

/-- Nothing waits after an event of which nothing is missing, if nothing did before. -/
theorem buffer_whole (i : Ids) (p : Bytes) : (whole i p).buffer [] = [] := by
  have hkeep : ∀ cs : List Bytes, keepIds i cs [i] = [i] := by
    intro cs
    induction cs with
    | nil => rfl
    | cons c cs ih =>
      have h : keepId i [i] = [i] := by simp [keepId, purge]
      rw [keepIds, List.foldl_cons, h]
      exact ih
  have hw : (whole i p).waiting [] = [] := by
    show dropId i (keepIds i (fullParts p) []) = []
    cases fullParts p with
    | nil => rfl
    | cons c cs =>
      have h : keepIds i (c :: cs) [] = keepIds i cs [i] := rfl
      rw [h, hkeep]
      simp [dropId, purge]
  have h := ((whole i p).buffer_spec Bounded.nil).2
  have hnil : waiting ([] : List Buffer) = [] := rfl
  rw [hnil, hw] at h
  exact List.map_eq_nil_iff.mp h

theorem reassemble_whole (ws : List (Ids × Bytes)) :
    reassemble [] (remaining (ws.map fun w => whole w.1 w.2)) = (ws, []) := by
  induction ws with
  | nil => rfl
  | cons w ws ih =>
    have hrem : remaining ((w :: ws).map fun w => whole w.1 w.2) =
        (whole w.1 w.2).parts ++ remaining (ws.map fun w => whole w.1 w.2) := rfl
    have hc : (whole w.1 w.2).content = w.2 := flatten_parts w.2
    rw [hrem, reassemble_remnant _ _ Bounded.nil, buffer_whole, ih, hc]
    rfl

/-- **The payloads written are the contents read**, and nothing stays behind. -/
theorem contents_packets_flatten {ws : List (Ids × Bytes)} {sub : Substream}
    (h : received sub = (ws.map fun w => (packets w.1 w.2).flatten).flatten) :
    contents .init sub = (ws, .init) := by
  have hw : wire (remaining (ws.map fun w => whole w.1 w.2)) =
      (ws.map fun w => (packets w.1 w.2).flatten).flatten := by
    clear h
    induction ws with
    | nil => rfl
    | cons w ws ih =>
      rw [List.map_cons, remaining, List.flatMap_cons, wire_append, wire_whole]
      rw [remaining] at ih
      rw [ih]
      rfl
  have hc := contents_wire (h.trans hw.symm) []
  rw [reassemble_whole] at hc
  exact hc

theorem serialize_sendable {d : Data reg} (h : Sendable d) :
    ∃ p, payload d.members = some p ∧ serialize d = .ok (packets d.ids p).flatten := by
  obtain ⟨p, hp⟩ := payload_isSome h.typed d.members
  exact ⟨p, hp, serialize_eq hp⟩

/-- The events of a list, as they are written and as they are read. -/
theorem payloads_of (ds : List (Data reg)) (h : ∀ d ∈ ds, Sendable d) :
    ∃ ws : List (Ids × Bytes),
      ds.map serialize = ws.map (fun w => .ok (packets w.1 w.2).flatten) ∧
      ws.map (fun w => finish reg w.1 w.2) = ds.map (fun d => .event (asSent d)) := by
  induction ds with
  | nil => exact ⟨[], rfl, rfl⟩
  | cons d ds ih =>
    obtain ⟨ws, h1, h2⟩ := ih (fun d' hd' => h d' (List.mem_cons_of_mem _ hd'))
    have hd := h d List.mem_cons_self
    obtain ⟨p, hp, hser⟩ := serialize_sendable hd
    refine ⟨(d.ids, p) :: ws, ?_, ?_⟩
    · rw [List.map_cons, List.map_cons, h1, hser]
    · rw [List.map_cons, List.map_cons, h2, finish_payload hd hp]

/--
**Events written one after the other are read one after the other.** They can all
be serialized; and from a stream that has read nothing, however their bytes come,
the calls give them in the order they were written, with what was sent of each,
and leave the stream as it was. An event whose members are all serialized is sent
entirely.
-/
theorem readAll_serialize (ds : List (Data reg)) (h : ∀ d ∈ ds, Sendable d) :
    (∃ outs : List Bytes, ds.map serialize = outs.map .ok ∧
      ∀ sub, received sub = outs.flatten →
        readAll reg .init sub = (ds.map (fun d => .event (asSent d)), .init)) ∧
    ∀ d ∈ ds, (∀ e ∈ d.info.mapping, e.serialize = true) → asSent d = d := by
  obtain ⟨ws, h1, h2⟩ := payloads_of ds h
  refine ⟨⟨ws.map fun w => (packets w.1 w.2).flatten, ?_, ?_⟩, fun d _ hd => asSent_eq hd⟩
  · rw [h1, List.map_map]
    rfl
  · intro sub hsub
    rw [readAll_eq_contents, contents_packets_flatten hsub, h2]

/-! ## What does not come back -/

/-- A class with a member that is not serialized, as the next notification of a host status is. -/
def statusInfo : EventInfo where
  name := "host_status"
  mapping := [⟨.uint, true⟩, ⟨.string, true⟩, ⟨.time, false⟩]
  constructor := some (.cons (0 : UInt32) (.cons ([] : Bytes) (.cons (0 : Int64) .nil)))

def statusRegistry : Registry := fun id => if id = 0x1000e then some statusInfo else none

def status (host : UInt32) (output : Bytes) (next_notification : Int64) : Data statusRegistry where
  ids := ⟨0x1000e, 1, 0⟩
  info := statusInfo
  registered := rfl
  members := .cons host (.cons output (.cons next_notification .nil))

theorem payload_status (host : UInt32) (output : Bytes) (next : Int64) :
    payload (status host output next).members = some (htonl host ++ (output ++ [0])) := by
  show some (htonl host ++ ((output ++ [0]) ++ [])) = _
  rw [List.append_nil]

theorem sendable_status {host : UInt32} {output : Bytes} {next : Int64} (h0 : 0 ∉ output)
    (hl : output.length < 2 ^ 16) : Sendable (status host output next) where
  constructed := rfl
  typed := by
    show ∀ e ∈ statusInfo.mapping, _
    decide
  clean := ⟨fun _ => trivial, fun _ => h0, nofun, trivial⟩
  small := by
    intro p hp
    rw [payload_status] at hp
    cases hp
    simp only [List.length_append, length_htonl, List.length_singleton]
    omega

theorem asSent_status (host : UInt32) (output : Bytes) (next : Int64) :
    asSent (status host output next) = status host output 0 := rfl

/-- A status crosses the wire, less its next notification. -/
theorem readAll_serialize_status :
    ∃ outs : List Bytes,
      [status 12 [0x4f, 0x4b] 5, status 13 [] 0].map serialize = outs.map .ok ∧
      readAll statusRegistry .init (outs.map (⟨·, true⟩)) =
        ([.event (status 12 [0x4f, 0x4b] 0), .event (status 13 [] 0)], .init) := by
  have hs : ∀ d ∈ [status 12 [0x4f, 0x4b] 5, status 13 [] 0], Sendable d := by
    intro d hd
    rcases List.mem_cons.mp hd with rfl | hd
    · exact sendable_status (by decide) (by decide)
    · rw [List.mem_singleton.mp hd]
      exact sendable_status (by decide) (by decide)
  obtain ⟨⟨outs, h1, h2⟩, _⟩ := readAll_serialize _ hs
  refine ⟨outs, h1, h2 _ ?_⟩
  rw [received, List.map_map]
  exact congrArg List.flatten (List.map_id _)

theorem readAll_status (host : UInt32) (output : Bytes) (next : Int64) :
    ∃ out, serialize (status host output next) = .ok out ∧
      (readAll statusRegistry .init [⟨out, false⟩]).1 =
        [finish statusRegistry ⟨0x1000e, 1, 0⟩ (htonl host ++ (output ++ [0]))] := by
  refine ⟨_, serialize_eq (payload_status host output next), ?_⟩
  have hsub : received [⟨(packets ⟨0x1000e, 1, 0⟩ (htonl host ++ (output ++ [0]))).flatten, false⟩] =
      ([(⟨0x1000e, 1, 0⟩, htonl host ++ (output ++ [0]))].map
        fun w => (packets w.1 w.2).flatten).flatten := rfl
  rw [readAll_eq_contents]
  exact congrArg (fun c => c.1.map fun c => finish statusRegistry c.1 c.2)
    (contents_packets_flatten hsub)

/-- A count that wrapped to zero has no room for a first member. -/
theorem finish_status_wrapped {host : UInt32} {output : Bytes}
    (hl : output.length = 2 ^ 32 - 5) :
    ∃ msg, finish statusRegistry ⟨0x1000e, 1, 0⟩ (htonl host ++ (output ++ [0])) = .error msg := by
  have hsize : UInt32.ofNat (htonl host ++ (output ++ [0])).length = 0 := by
    apply UInt32.toNat_inj.mp
    rw [UInt32.toNat_ofNat']
    simp only [List.length_append, length_htonl, List.length_singleton, hl]
    rfl
  have hr : statusRegistry (Ids.event_id ⟨0x1000e, 1, 0⟩) = some statusInfo := rfl
  rw [finish, hsize, unserialize_eq hr rfl]
  exact ⟨_, rfl⟩

/--
**Two ways for an event not to come back.** A member that is not serialized keeps
the value of the constructor; and a content of `2 ^ 32` bytes is taken for an
empty one.
-/
theorem not_all_come_back :
    (∃ out, serialize (status 12 [] 5) = .ok out ∧
      (readAll statusRegistry .init [⟨out, false⟩]).1 ≠ [.event (status 12 [] 5)]) ∧
    ∃ out, serialize (status 12 (List.replicate (2 ^ 32 - 5) 0x61) 0) = .ok out ∧
      (readAll statusRegistry .init [⟨out, false⟩]).1 ≠
        [.event (status 12 (List.replicate (2 ^ 32 - 5) 0x61) 0)] := by
  constructor
  · obtain ⟨out, h1, h2⟩ := readAll_status 12 [] 5
    refine ⟨out, h1, ?_⟩
    have hf := finish_payload (@sendable_status 12 [] 5 (by decide) (by decide))
      (payload_status 12 [] 5)
    have hi : (status 12 [] 5).ids = ⟨0x1000e, 1, 0⟩ := rfl
    rw [hi, asSent_status] at hf
    rw [h2, hf]
    intro he
    injection he with he
    injection he with he
    injection he with _ _ hm
    have ht := (Members.cons.inj (Members.cons.inj (Members.cons.inj hm).2).2).1
    exact absurd ht (by decide)
  · obtain ⟨out, h1, h2⟩ := readAll_status 12 (List.replicate (2 ^ 32 - 5) 0x61) 0
    obtain ⟨msg, hm⟩ := @finish_status_wrapped 12 (List.replicate (2 ^ 32 - 5) 0x61)
      List.length_replicate
    refine ⟨out, h1, ?_⟩
    rw [h2, hm]
    intro he
    injection he with he
    cases he

end CentreonBroker.Bbdo

/-!
## Losing packets

A retention file can lose some of its packets. An event of which nothing is
missing should not suffer from what happened to the others, and the parts of an
event whose end is lost should never end up in another event.

They can, since parts wait under the ids of their event only, and the next event
of the same type, source and destination has the same ids. This is the one case:
`isolated_iff` says that events are isolated exactly when no last part comes
while parts of an earlier event wait for the same ids.
-/

namespace CentreonBroker.Bbdo

open Bytes Io

variable {reg : Registry}

/-- What is left of a valid event in a stream. -/
structure Survivor (reg : Registry) extends Remnant where
  data : Data reg
  sendable : Sendable data
  ids_eq : ids = data.ids
  payload_eq : Bbdo.payload data.members = some payload

/-- The events of a stream do not suffer from what is missing of the others. -/
structure Isolated (rs : List (Survivor reg)) (sub : Substream) : Prop where
  /-- Whatever is decoded comes from the parts of one event. -/
  own : (contents .init sub).1 = ownContents (rs.map Survivor.toRemnant)
  /-- An event sent in one packet that is not lost is decoded to what was sent. -/
  decoded : ∀ before r after, rs = before ++ r :: after →
    r.last = true → fullParts r.payload = [] →
    (readAll reg .init sub).1[(ownContents (before.map Survivor.toRemnant)).length]? =
      some (.event (asSent r.data))

/-- An event sent in one packet has its whole payload in it. -/
theorem Remnant.content_of_single {r : Remnant} (h : fullParts r.payload = []) :
    r.content = r.payload := by
  have hf : r.full = [] := List.sublist_nil.mp (h ▸ r.kept)
  have hp := flatten_parts r.payload
  rw [h] at hp
  rw [Remnant.content, hf]
  exact hp

theorem ownContents_append (rs qs : List Remnant) :
    ownContents (rs ++ qs) = ownContents rs ++ ownContents qs := by
  rw [ownContents, List.filter_append, List.map_append, ownContents, ownContents]

/-- Reading one's own content is enough to be decoded. -/
theorem decoded_of_own {rs : List (Survivor reg)} {sub : Substream}
    (h : (contents .init sub).1 = ownContents (rs.map Survivor.toRemnant)) : Isolated rs sub where
  own := h
  decoded := by
    intro before r after hrs hl hsingle
    have hr : ownContents ((r :: after).map Survivor.toRemnant) =
        (r.ids, r.payload) :: ownContents (after.map Survivor.toRemnant) := by
      rw [List.map_cons, ownContents, List.filter_cons_of_pos hl, List.map_cons,
        Remnant.content_of_single hsingle]
      rfl
    rw [readAll_eq_contents, h, hrs, List.map_append, ownContents_append, hr, List.map_append,
      List.map_cons, ← List.length_map (f := fun c : Ids × Bytes => finish reg c.1 c.2),
      List.getElem?_append_right (Nat.le_refl _), Nat.sub_self]
    rw [List.getElem?_cons_zero, r.ids_eq, finish_payload r.sendable r.payload_eq]

/-- The contents of a stream are the own ones just when no event is disturbed. -/
theorem contents_own_iff {rs : List Remnant} {sub : Substream}
    (h : received sub = wire (remaining rs)) :
    (contents .init sub).1 = ownContents rs ↔ Undisturbed [] rs := by
  have hc : contents .init sub = _ := contents_wire h []
  rw [hc]
  exact reassemble_own_iff rs Bounded.nil

/--
**Events are isolated from each other's losses exactly when none is disturbed**,
that is when no last part comes while parts of an earlier event wait for the same
ids. Whether they wait is known from the ids and from which packets are lost:
ids wait from the first part of `0xffff` bytes that comes with them to the next
last part that does, unless too many others wait since. Four may, three once a
last part has come.
-/
theorem isolated_iff (rs : List (Survivor reg)) (sub : Substream)
    (h : received sub = wire (remaining (rs.map Survivor.toRemnant))) :
    Isolated rs sub ↔ Undisturbed [] (rs.map Survivor.toRemnant) := by
  rw [← contents_own_iff h]
  exact ⟨fun hi => hi.own, decoded_of_own⟩

/-! ## Two statuses of one source -/

def longOutput : Bytes := List.replicate 0xffff 0x61

theorem length_longOutput : longOutput.length = 0xffff := List.length_replicate

theorem not_mem_longOutput : (0 : UInt8) ∉ longOutput := by
  intro h
  exact absurd (List.eq_of_mem_replicate h) (by decide)

/-- A status that takes two packets, the second of which is lost. -/
def cutStatus : Survivor statusRegistry where
  data := status 12 longOutput 0
  sendable := sendable_status not_mem_longOutput (by rw [length_longOutput]; decide)
  ids := ⟨0x1000e, 1, 0⟩
  payload := htonl 12 ++ (longOutput ++ [0])
  full := [(htonl 12 ++ (longOutput ++ [0])).take maxPacketSize]
  kept := by
    have h : maxPacketSize ≤ (htonl 12 ++ (longOutput ++ [0])).length := by
      rw [List.length_append, List.length_append, length_longOutput]
      exact Nat.le_add_left_of_le (Nat.le_add_right _ _)
    rw [fullParts_of_le h]
    exact List.singleton_sublist.mpr List.mem_cons_self
  last := false
  ids_eq := rfl
  payload_eq := payload_status _ _ _

/-- A status that takes one packet, which is not lost. -/
def shortStatus : Survivor statusRegistry where
  data := status 12 [0x4f, 0x4b] 0
  sendable := sendable_status (by decide) (by decide)
  ids := ⟨0x1000e, 1, 0⟩
  payload := htonl 12 ++ ([0x4f, 0x4b] ++ [0])
  full := []
  kept := List.nil_sublist _
  last := true
  ids_eq := rfl
  payload_eq := payload_status _ _ _

theorem waiting_cutStatus : cutStatus.toRemnant.waiting [] = [⟨0x1000e, 1, 0⟩] := by
  have hl : cutStatus.toRemnant.last = false := rfl
  have hi : cutStatus.toRemnant.ids = ⟨0x1000e, 1, 0⟩ := rfl
  obtain ⟨c, hc⟩ : ∃ c, cutStatus.toRemnant.full = [c] := ⟨_, rfl⟩
  rw [Remnant.waiting, hl, hi, hc]
  rfl

/-- The short status first: the lost end of the other one disturbs nothing. -/
theorem isolated_shortStatus_first :
    Isolated [shortStatus, cutStatus]
      [⟨wire (remaining ([shortStatus, cutStatus].map Survivor.toRemnant)), false⟩] :=
  (isolated_iff [shortStatus, cutStatus] _ (List.append_nil _)).mpr
    ⟨fun _ => List.not_mem_nil, fun h => absurd h Bool.false_ne_true, trivial⟩

/-- The short status last: it is read with what waits of the other one. -/
theorem not_isolated_cutStatus_first :
    ¬ Isolated [cutStatus, shortStatus]
      [⟨wire (remaining ([cutStatus, shortStatus].map Survivor.toRemnant)), false⟩] := by
  intro h
  have hu := (contents_own_iff (List.append_nil _)).mp h.own
  have hmem : shortStatus.toRemnant.ids ∈ cutStatus.toRemnant.waiting [] := by
    rw [waiting_cutStatus]
    exact List.mem_cons_self
  exact hu.2.1 rfl hmem

end CentreonBroker.Bbdo
