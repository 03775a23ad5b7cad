import CentreonBroker.Bbdo.Stream
import CentreonBroker.Compression.Stream
import CentreonBroker.File.Gaps
import CentreonBroker.PersistentFile

/-!
# The loops that wait for a persistent file

Under a muxer, `_read_packet` asks the compression layer for data until it has enough, and a
read that gives none is made again. `_get_event_from_file` does the same with events. Such a
loop ends with what it waits for, or with the shutdown of the file: it ends where the splitter
under it misses no part, whatever bytes are in the parts.

Each loop comes with a number of turns, and gives nothing when there are too few.
-/

namespace CentreonBroker.Multiplexing.Waiting

open Bytes Io Bbdo Compression File

variable [Zlib] {reg : Registry}

/-- A `persistent_file`: the BBDO layer, over the compression layer and the splitter. -/
structure Reader where
  bbdo : Bbdo.Stream
  file : Compression.Stream

/-- `_read_packet`. -/
def readPacket (size : ℕ) : ℕ → Reader → Option (PacketStatus × Reader)
  | 0, _ => none
  | turns + 1, r =>
    if size ≤ r.bbdo.packet.length then some (.filled, r)
    else
      match r.file.read with
      | (.data b, file) =>
        readPacket size turns ⟨{ r.bbdo with packet := r.bbdo.packet ++ b }, file⟩
      -- no data and no time out: the loop goes on
      | (.null, file) => readPacket size turns ⟨r.bbdo, file⟩
      | (.shutdown, file) => some (.shutdown, ⟨r.bbdo, file⟩)

/-- One turn of the loop of `_read_any`. -/
def turn (turns : ℕ) (r : Reader) : Option (Option Outcome × Reader) :=
  match readPacket headerSize turns r with
  | none => none
  | some (.timeout, r) => some (some .timeout, r)
  | some (.shutdown, r) => some (some .shutdown, r)
  | some (.filled, r) =>
    let h := parseHeader r.bbdo.packet
    if h.expected ≠ h.chksum then
      some (none, ⟨{ r.bbdo with packet := r.bbdo.packet.drop 1, skipped := r.bbdo.skipped + 1 },
        r.file⟩)
    else
      match readPacket (headerSize + h.packetSize) turns ⟨{ r.bbdo with skipped := 0 }, r.file⟩ with
      | none => none
      | some (.timeout, r) => some (some .timeout, r)
      | some (.shutdown, r) => some (some .shutdown, r)
      | some (.filled, r) =>
        some ((takePacket h r.bbdo).1, ⟨(takePacket h r.bbdo).2, r.file⟩)

/-- `_read_any`, up to its call to `unserialize`. -/
def readContent (turns : ℕ) : ℕ → Reader → Option (Outcome × Reader)
  | 0, _ => none
  | n + 1, r =>
    match turn turns r with
    | none => none
    | some (some o, r) => some (o, r)
    | some (none, r) => readContent turns n r

/-- `_read_any`. -/
def readAny (reg : Registry) (turns : ℕ) (r : Reader) : Option (ReadResult reg × Reader) :=
  (readContent turns turns r).map fun x => (x.1.result reg, x.2)

/-- The members of type `short`, in the order of the mapping. -/
def shorts : {m : List Entry} → Members m → List Int16
  | _, .nil => []
  | _, @Members.cons e _ v rest =>
    match e, v with
    | ⟨.short, _⟩, v => v :: shorts rest
    | _, _ => shorts rest

/-- The category of the events of the protocol itself. -/
def isBbdo (d : Data reg) : Bool := d.ids.event_id >>> 16 = 2

/-- What `read` throws for a `version_response` of another major version. -/
def versionError (d : Data reg) : Option String :=
  if d.ids.event_id &&& 0xffff = 1 ∧ (shorts d.members).head? ≠ some 2 then
    some ("BBDO: peer is using protocol version " ++
      ".".intercalate ((shorts d.members).map toString) ++
      " whereas we're using protocol version 2.0.0")
  else none

/-- `stream::read`: the events of the protocol are not given. -/
def read (reg : Registry) (turns : ℕ) : ℕ → Reader → Option (ReadResult reg × Reader)
  | 0, _ => none
  | n + 1, r =>
    match readAny reg turns r with
    | none => none
    | some (.event d, r) =>
      if isBbdo d then
        match versionError d with
        | some msg => some (.error msg, r)
        | none => read reg turns n r
      else some (.event d, r)
    | some (res, r) => some (res, r)

/-- How `_get_event_from_file` ends. -/
inductive Fetched (reg : Registry) where
  | event (d : Data reg) (r : Reader)
  /-- The file is closed. -/
  | closed
  /-- What a read throws, other than the shutdown. -/
  | error (msg : String)

/-- `_get_event_from_file`. -/
def getEventFromFile (reg : Registry) (turns : ℕ) : ℕ → Reader → Option (Fetched reg)
  | 0, _ => none
  | n + 1, r =>
    match read reg turns turns r with
    | none => none
    | some (.event d, r) => some (.event d r)
    | some (.ignored _, r) => getEventFromFile reg turns n r
    | some (.timeout, r) => getEventFromFile reg turns n r
    | some (.error msg, _) => some (.error msg)
    | some (.shutdown, _) => some .closed

/-- The loop of the constructor over the memory file. -/
def readBack (reg : Registry) (turns : ℕ) : ℕ → Reader → Option (Except String (List (Data reg)))
  | 0, _ => none
  | n + 1, r =>
    match read reg turns turns r with
    | none => none
    | some (.event d, r) => (readBack reg turns n r).map fun x => x.map (d :: ·)
    | some (.ignored _, r) => readBack reg turns n r
    | some (.timeout, r) => readBack reg turns n r
    | some (.error msg, _) => some (.error msg)
    | some (.shutdown, _) => some (.ok [])

/-- The loop of the constructor over the queue file, from so many events in memory. -/
def loadQueue (reg : Registry) (max : ℕ) (turns : ℕ) :
    ℕ → ℕ → Reader → Option (Except String (List (Data reg)))
  | 0, _, _ => none
  | n + 1, events_size, r =>
    match getEventFromFile reg turns turns r with
    | none => none
    | some .closed => some (.ok [])
    | some (.error msg) => some (.error msg)
    | some (.event d r) =>
      if events_size + 1 < max then
        (loadQueue reg max turns n (events_size + 1) r).map fun x => x.map (d :: ·)
      else some (.ok [d])

/-! ## What the compression layer gives -/

variable {c : Compression.Stream}

omit [Zlib] in
/-- Over a splitter that misses no part, `_get_data` never meets an interruption. -/
theorem getData_complete (size : ℕ) (C : Complete c.splitter c.fs) :
    ∃ c', getData size c = (true, c') ∧ Complete c'.splitter c'.fs := by
  induction hn : size - c.rbuffer.length using Nat.strongRecOn generalizing c with
  | ind n ih =>
    rw [getData]
    by_cases hlt : c.rbuffer.length < size
    · rw [if_pos hlt]
      rcases C.read bufsiz_ne_zero with ⟨b, s', fs', hr, hb, C', -⟩ | ⟨s', fs', hr, C', -⟩
      · rw [hr]
        have hpos := List.length_pos_iff.mpr hb
        have hsum : (c.rbuffer ++ b).length = c.rbuffer.length + b.length := List.length_append
        exact ih (size - (c.rbuffer ++ b).length) (by omega)
          (c := { c with splitter := s', fs := fs', rbuffer := c.rbuffer ++ b }) C' rfl
      · rw [hr]
        exact ⟨_, rfl, C'⟩
    · rw [if_neg hlt]
      exact ⟨c, rfl, C⟩

/-- So that a read gives data, or else throws the shutdown. -/
theorem read_complete (C : Complete c.splitter c.fs) :
    (∃ c', c.read = (.shutdown, c')) ∨
      ∃ b c', c.read = (.data b, c') ∧ Complete c'.splitter c'.fs := by
  induction hn : c.left using Nat.strongRecOn generalizing c with
  | ind n ih =>
    obtain ⟨c₁, hg₁, C₁⟩ := getData_complete 4 C
    have hl₁ := left_getData 4 c
    rw [hg₁] at hl₁
    have hl₁ : c₁.left ≤ c.left := hl₁
    rw [Stream.read, hg₁]
    dsimp only
    by_cases hlt : c₁.rbuffer.length < 4
    · rw [dif_pos hlt]
      exact Or.inl ⟨_, rfl⟩
    rw [dif_neg hlt]
    by_cases hbad : (ntohl c₁.rbuffer).toNat = 0 ∨ max_data_size < (ntohl c₁.rbuffer).toNat
    · have hpop := left_pop (c := c₁) Nat.zero_lt_one (by omega)
      rw [if_pos hbad]
      exact ih _ (by omega) (c := c₁.pop 1) C₁ rfl
    rw [if_neg hbad]
    obtain ⟨c₂, hg₂, C₂⟩ := getData_complete ((ntohl c₁.rbuffer).toNat + 4) C₁
    have hl₂ := left_getData ((ntohl c₁.rbuffer).toNat + 4) c₁
    have hlen := length_getData ((ntohl c₁.rbuffer).toNat + 4) c₁
    rw [hg₂] at hl₂ hlen
    have hl₂ : c₂.left ≤ c₁.left := hl₂
    have hlen : c₁.rbuffer.length ≤ c₂.rbuffer.length := hlen
    rw [hg₂]
    dsimp only
    by_cases hnil : (if (ntohl c₁.rbuffer).toNat + 4 ≤ c₂.rbuffer.length then
        Zlib.uncompress ((c₂.rbuffer.drop 4).take (ntohl c₁.rbuffer).toNat) else []) = []
    · have hpop := left_pop (c := c₂) Nat.zero_lt_one (by omega)
      rw [if_pos hnil]
      exact ih _ (by omega) (c := c₂.pop 1) C₂ rfl
    · rw [if_neg hnil]
      exact Or.inr ⟨_, _, rfl, C₂⟩

/-- What the reads give: data, and then the shutdown. -/
inductive Feeds : Compression.Stream → Substream → Prop
  | shutdown {c c' : Compression.Stream} (h : c.read = (.shutdown, c')) : Feeds c []
  | data {c c' : Compression.Stream} {b : Bytes} {sub : Substream} (h : c.read = (.data b, c'))
      (rest : Feeds c' sub) : Feeds c (⟨b, false⟩ :: sub)

theorem exists_feeds (C : Complete c.splitter c.fs) :
    ∃ sub, Feeds c sub := by
  induction hn : c.left using Nat.strongRecOn generalizing c with
  | ind n ih =>
    rcases read_complete C with ⟨c', hr⟩ | ⟨b, c', hr, C'⟩
    · exact ⟨[], .shutdown hr⟩
    · have hlt := Stream.left_read hr
      obtain ⟨sub, hsub⟩ := ih c'.left (by omega) C' rfl
      exact ⟨_, .data hr hsub⟩

/-! ## The loops follow what is read -/

variable {r : Reader} {turns : ℕ}

/-- The packet is filled from what comes, or the shutdown is met. -/
theorem readPacket_feeds (size : ℕ) {sub : Substream} (h : Feeds r.file sub)
    (hturns : sub.length < turns) :
    ∃ st s' sub' file', Bbdo.readPacket size r.bbdo sub = (st, s', sub') ∧
      readPacket size turns r = some (st, ⟨s', file'⟩) ∧ (st ≠ .shutdown → Feeds file' sub') := by
  induction turns generalizing r sub with
  | zero => omega
  | succ turns ih =>
    by_cases hsize : size ≤ r.bbdo.packet.length
    · rw [readPacket, if_pos hsize]
      cases h with
      | shutdown hr =>
        exact ⟨_, _, _, r.file, by rw [Bbdo.readPacket, if_pos hsize], rfl, fun _ => .shutdown hr⟩
      | data hr hrest =>
        exact ⟨_, _, _, r.file, by rw [Bbdo.readPacket, if_pos hsize], rfl, fun _ => .data hr hrest⟩
    · rw [readPacket, if_neg hsize]
      cases h with
      | @shutdown _ c' hr =>
        rw [hr]
        exact ⟨_, _, _, c', by rw [Bbdo.readPacket, if_neg hsize], rfl, fun h => absurd rfl h⟩
      | @data _ c' b sub hr hrest =>
        rw [hr]
        simp only [List.length_cons] at hturns
        obtain ⟨st, s', sub', file', hlist, hloop, hfeeds⟩ :=
          ih (r := ⟨{ r.bbdo with packet := r.bbdo.packet ++ b }, c'⟩) hrest (by omega)
        exact ⟨st, s', sub', file', by rw [Bbdo.readPacket, if_neg hsize]; exact hlist, hloop, hfeeds⟩

omit [Zlib] in
/-- The number of reads that are left is part of what is to do. -/
theorem length_le_todo (s : Bbdo.Stream) (sub : Substream) : sub.length ≤ todo s sub :=
  Nat.le_add_left _ _

theorem turn_feeds {sub : Substream} (h : Feeds r.file sub)
    (hturns : todo r.bbdo sub < turns) :
    ∃ o s' sub' file', Bbdo.turn r.bbdo sub = (o, s', sub') ∧
      turn turns r = some (o, ⟨s', file'⟩) ∧ (o ≠ some .shutdown → Feeds file' sub') := by
  have hlength := length_le_todo r.bbdo sub
  obtain ⟨st₁, s₁, sub₁, file₁, hlist₁, hloop₁, hfeeds₁⟩ :=
    readPacket_feeds headerSize h (show sub.length < turns by omega)
  rw [turn, hloop₁, Bbdo.turn, hlist₁]
  cases st₁ with
  | timeout => exact ⟨_, _, _, file₁, rfl, rfl, fun _ => hfeeds₁ (fun h => by cases h)⟩
  | shutdown => exact ⟨_, _, _, file₁, rfl, rfl, fun h => absurd rfl h⟩
  | filled =>
    have hfeeds₁ := hfeeds₁ (fun h => by cases h)
    by_cases hsum : (parseHeader s₁.packet).expected ≠ (parseHeader s₁.packet).chksum
    · dsimp only
      rw [if_pos hsum, if_pos hsum]
      exact ⟨_, _, _, file₁, rfl, rfl, fun _ => hfeeds₁⟩
    · have hsuffix := (readPacket_spec hlist₁).length_le
      obtain ⟨st₂, s₂, sub₂, file₂, hlist₂, hloop₂, hfeeds₂⟩ :=
        readPacket_feeds (headerSize + (parseHeader s₁.packet).packetSize)
          (r := ⟨{ s₁ with skipped := 0 }, file₁⟩) hfeeds₁ (show sub₁.length < turns by omega)
      dsimp only
      rw [if_neg hsum, if_neg hsum, hloop₂, hlist₂]
      cases st₂ with
      | timeout | filled => exact ⟨_, _, _, file₂, rfl, rfl, fun _ => hfeeds₂ (fun h => by cases h)⟩
      | shutdown => exact ⟨_, _, _, file₂, rfl, rfl, fun h => absurd rfl h⟩

/-- A reader that has that much to do, in bytes and in reads, before the shutdown. -/
def Fed (t : ℕ) (r : Reader) : Prop := ∃ sub, Feeds r.file sub ∧ todo r.bbdo sub = t

variable {t n : ℕ}

theorem readContent_fed (h : Fed t r) (hturns : t < turns)
    (hn : t < n) : ∃ o r', readContent turns n r = some (o, r') ∧
      (o ≠ .shutdown → ∃ t' < t, Fed t' r') := by
  induction n generalizing t r with
  | zero => omega
  | succ n ih =>
    obtain ⟨sub, hsub, rfl⟩ := h
    obtain ⟨o, s', sub', file', hlist, hloop, hfeeds⟩ := turn_feeds hsub hturns
    rw [readContent, hloop]
    cases o with
    | some o =>
      refine ⟨o, _, rfl, fun ho => ⟨todo s' sub', ?_, sub', hfeeds ?_, rfl⟩⟩
      · exact turn_lt hlist fun h => ho (Option.some.inj h)
      · exact fun h => ho (Option.some.inj h)
    | none =>
      have hlt := turn_lt hlist (fun h => by cases h)
      obtain ⟨o, r', hrest, hfed⟩ := ih (t := todo s' sub') (r := ⟨s', file'⟩)
        ⟨sub', hfeeds (fun h => by cases h), rfl⟩ (by omega) (by omega)
      refine ⟨o, r', hrest, fun ho => ?_⟩
      obtain ⟨t', ht', hfed⟩ := hfed ho
      exact ⟨t', by omega, hfed⟩

variable (reg) in
theorem readAny_fed (h : Fed t r) (hturns : t < turns) :
    ∃ res r', readAny reg turns r = some (res, r') ∧
      (res.isShutdown = false → ∃ t' < t, Fed t' r') := by
  obtain ⟨o, r', hloop, hfed⟩ := readContent_fed h hturns hturns
  refine ⟨o.result reg, r', by rw [readAny, hloop]; rfl, fun hres => hfed fun ho => ?_⟩
  rw [ho] at hres
  cases hres

variable (reg) in
theorem read_fed (h : Fed t r) (hturns : t < turns)
    (hn : t < n) : ∃ res r', read reg turns n r = some (res, r') ∧
      (res.isShutdown = false → ∃ t' < t, Fed t' r') := by
  induction n generalizing t r with
  | zero => omega
  | succ n ih =>
    obtain ⟨res, r', hloop, hfed⟩ := readAny_fed reg h hturns
    rw [read, hloop]
    cases res with
    | event d =>
      obtain ⟨t', ht', hfed'⟩ := hfed rfl
      by_cases hd : isBbdo d = true
      · dsimp only
        rw [if_pos hd]
        cases versionError d with
        | some msg => exact ⟨_, r', rfl, fun _ => ⟨t', ht', hfed'⟩⟩
        | none =>
          obtain ⟨res, r₂, hrest, hfed₂⟩ := ih hfed' (by omega) (by omega)
          refine ⟨res, r₂, hrest, fun hres => ?_⟩
          obtain ⟨t₂, ht₂, hfed₂⟩ := hfed₂ hres
          exact ⟨t₂, by omega, hfed₂⟩
      · dsimp only
        rw [if_neg hd]
        exact ⟨_, r', rfl, hfed⟩
    | ignored => exact ⟨_, r', rfl, hfed⟩
    | timeout => exact ⟨_, r', rfl, hfed⟩
    | error => exact ⟨_, r', rfl, hfed⟩
    | shutdown => exact ⟨_, r', rfl, hfed⟩

variable (reg) in
theorem getEventFromFile_fed (h : Fed t r) (hturns : t < turns)
    (hn : t < n) : ∃ x, getEventFromFile reg turns n r = some x ∧
      ∀ d r', x = .event d r' → ∃ t' < t, Fed t' r' := by
  induction n generalizing t r with
  | zero => omega
  | succ n ih =>
    obtain ⟨res, r', hloop, hfed⟩ := read_fed reg h hturns hturns
    have hagain : res.isShutdown = false → ∃ x, getEventFromFile reg turns n r' = some x ∧
        ∀ d r₂, x = .event d r₂ → ∃ t' < t, Fed t' r₂ := by
      intro hres
      obtain ⟨t', ht', hfed'⟩ := hfed hres
      obtain ⟨x, hx, hevent⟩ := ih hfed' (by omega) (by omega)
      refine ⟨x, hx, fun d r₂ hd => ?_⟩
      obtain ⟨t₂, ht₂, hfed₂⟩ := hevent d r₂ hd
      exact ⟨t₂, by omega, hfed₂⟩
    rw [getEventFromFile, hloop]
    cases res with
    | event d =>
      refine ⟨_, rfl, fun d' r₂ hd => ?_⟩
      cases hd
      exact hfed rfl
    | ignored => exact hagain rfl
    | timeout => exact hagain rfl
    | error | shutdown => exact ⟨_, rfl, fun d r₂ hd => by cases hd⟩

theorem readBack_fed (h : Fed t r) (hturns : t < turns)
    (hn : t < n) : (readBack reg turns n r).isSome := by
  induction n generalizing t r with
  | zero => omega
  | succ n ih =>
    obtain ⟨res, r', hloop, hfed⟩ := read_fed reg h hturns hturns
    have hagain : res.isShutdown = false → (readBack reg turns n r').isSome := by
      intro hres
      obtain ⟨t', ht', hfed'⟩ := hfed hres
      exact ih hfed' (by omega) (by omega)
    rw [readBack, hloop]
    cases res with
    | event d =>
      rw [Option.isSome_map]
      exact hagain rfl
    | ignored => exact hagain rfl
    | timeout => exact hagain rfl
    | error => rfl
    | shutdown => rfl

theorem loadQueue_fed {max : ℕ} (h : Fed t r) (hturns : t < turns)
    (hn : t < n) (events_size : ℕ) : (loadQueue reg max turns n events_size r).isSome := by
  induction n generalizing t r events_size with
  | zero => omega
  | succ n ih =>
    obtain ⟨x, hx, hevent⟩ := getEventFromFile_fed reg h hturns hturns
    rw [loadQueue, hx]
    cases x with
    | event d r' =>
      obtain ⟨t', ht', hfed'⟩ := hevent d r' rfl
      dsimp only
      split
      · rw [Option.isSome_map]
        exact ih hfed' (by omega) (by omega) (events_size + 1)
      · rfl
    | closed => rfl
    | error msg => rfl

/-! ## Reading a file that was left -/

/-- A `persistent_file`, on what the disk has under its path. -/
def openFile (fs : FileSystem ℕ) : Reader := ⟨Bbdo.Stream.init, PersistentFile.openStream fs⟩

/-- The splitter gives all there is, and the loops over it end. -/
structure Progresses (reg : Registry) (fs : FileSystem ℕ) : Prop where
  drains : ∀ (max_file_size : ℤ) (auto_delete : Bool) (sizes : ℕ → ℕ), (∀ n, 0 < sizes n) →
    Drains sizes (start id max_file_size auto_delete (partIds fs) fs).1
      (start id max_file_size auto_delete (partIds fs) fs).2 (allBytes fs)
  read_packet : ∀ (size : ℕ) (s : Bbdo.Stream),
    ∃ turns, (readPacket size turns ⟨s, (openFile fs).file⟩).isSome
  get_event_from_file : ∃ turns, (getEventFromFile reg turns turns (openFile fs)).isSome
  memory_file : ∃ turns, (readBack reg turns turns (openFile fs)).isSome
  queue_file : ∀ max events_size,
    ∃ turns, (loadQueue reg max turns turns events_size (openFile fs)).isSome

omit [Zlib] in
/-- The constructor leaves a splitter that misses no part, where none is missing on the disk. -/
theorem complete_openFile {fs : FileSystem ℕ} (h : Contiguous fs) :
    Complete (openFile fs).file.splitter (openFile fs).file.fs := by
  show Complete (start id 100000000 true (partIds fs) fs).1
    (start id 100000000 true (partIds fs) fs).2
  by_cases hall : ∀ k, fs.find k = none
  · obtain ⟨s, fs', hstart, C, -⟩ := start_absent hall 100000000 true
    rw [hstart]
    exact C
  · obtain ⟨i, hi⟩ := not_forall.mp hall
    obtain ⟨s, fs', f, hstart, O⟩ := start_present hi 100000000 true
    rw [hstart]
    exact O.complete h

/--
**Reading progresses to the end** if and only if no part is missing between two others, and the
last part does not break off in its header.
-/
theorem progresses_iff (reg : Registry) (fs : FileSystem ℕ) :
    Progresses reg fs ↔ Contiguous fs ∧ LastWhole fs := by
  constructor
  · intro h
    exact (drains_start_iff fs 0 true).mp (h.drains 0 true)
  · rintro ⟨hcontiguous, hlast⟩
    obtain ⟨sub, hsub⟩ := exists_feeds (complete_openFile hcontiguous)
    have hfed : Fed (todo (openFile fs).bbdo sub) (openFile fs) := ⟨sub, hsub, rfl⟩
    have hturns := Nat.lt_succ_self (todo (openFile fs).bbdo sub)
    refine ⟨fun max_file_size auto_delete sizes hsizes => ?_, fun size s => ?_, ?_, ?_, ?_⟩
    · exact (drains_start_iff fs max_file_size auto_delete).mpr ⟨hcontiguous, hlast⟩ sizes hsizes
    · obtain ⟨st, s', sub', file', -, hloop, -⟩ := readPacket_feeds size
        (r := ⟨s, (openFile fs).file⟩) hsub (Nat.lt_succ_self sub.length)
      exact ⟨_, by rw [hloop]; rfl⟩
    · obtain ⟨x, hx, -⟩ := getEventFromFile_fed reg hfed hturns hturns
      exact ⟨_, by rw [hx]; rfl⟩
    · exact ⟨_, readBack_fed hfed hturns hturns⟩
    · exact fun max events_size => ⟨_, loadQueue_fed hfed hturns hturns events_size⟩

/-- The first part and the third one, each with a header and one byte. -/
def oddParts : FileSystem ℕ := ⟨[(0, 0), (2, 1)], fun _ => partHeader ++ [0], 2⟩

omit [Zlib] in
theorem not_progresses :
    ¬ ∀ (_ : Zlib) (reg : Registry) (fs : FileSystem ℕ), Progresses reg fs := by
  intro h
  let plain : Zlib := ⟨fun b => b, fun b => b⟩
  have hprogress := h plain (fun _ => none) oddParts
  have hcontiguous := ((drains_start_iff oddParts 0 true).mp (hprogress.drains 0 true)).1
  exact hcontiguous 0 2 1 (by decide) (by decide) (by decide) (by decide) (by decide)

end CentreonBroker.Multiplexing.Waiting
