import CentreonBroker.Bbdo.RoundTrip
import CentreonBroker.File.Splitter
import CentreonBroker.Lib.FileSystem

/-!
# The persistent cache

A `persistent_cache` is a file of events that is replaced as a whole. A transaction
writes a second file, `.new`; `commit` moves the cache to `.old`, moves `.new` to the
cache and removes `.old`; opening brings `.old` back when the cache is missing.

Beside the model of the code is what a cache is for, `Spec`: the events that were
committed last, and what an object has read and written since. Only a commit that is
stopped leaves `Spec` a choice, between its events and those that were there before.
-/

namespace CentreonBroker.PersistentCache

open Bytes File

/-- `_cache_file`, `_new_file()` and `_old_file()`. -/
inductive Name where
  | cache
  | new
  | old
  deriving DecidableEq, Repr

/--
The BBDO layer of the files: what an event is written as, and the events that are read of
some bytes. The header of a packet has 16 bytes.
-/
class EventCodec (α : Type) where
  serialize : α → Bytes
  parse : Bytes → List α
  parse_serialize : ∀ l : List α, parse (l.flatMap serialize) = l
  parse_short : ∀ b : Bytes, b.length < 16 → parse b = []

/--
The members of `persistent_cache`. What was written to a `FILE` may wait in its buffer:
the header of the file that is read, when opening it wrote one, and all that was written
to the other. Reading gives the events that are left of those found on opening.
-/
structure Cache (α : Type) where
  read_file : Option (Bytes × List α)
  write_file : Option Bytes

/-- How a call ends. -/
inductive Reply (α : Type) where
  | done
  | event (e : Option α)
  | threw
  /-- The process stopped. -/
  | stopped
  /-- There is no object to call, or there is one already. -/
  | absent
  deriving DecidableEq

/-- The calls, and the ways for the process to stop. -/
inductive Op (α : Type) where
  | construct
  | get
  | transaction
  | add (e : α)
  /-- With a number, the process stops after that many of the steps of `commit`. -/
  | commit (stop : Option Nat)
  | rollback
  | destroy
  /-- The process stops, with that many bytes of each buffer in the file. -/
  | crash (kept_read kept_write : Nat)

/-- The files, and the object that works on them if there is one. -/
structure State (α : Type) where
  fs : Files Name
  object : Option (Cache α)

section Model

variable {α : Type} [EventCodec α]

/-! ## Its functions -/

/-- The events of a file: they are after the header. -/
def events (b : Bytes) : List α :=
  if b.length < partHeaderSize then [] else EventCodec.parse (b.drop partHeaderSize)

/-- `splitter::_open_write_file`, for a file with one part. The header waits in the buffer. -/
def openFile (n : Name) (fs : Files Name) : Bytes × Files Name :=
  let fs := fs.create n
  (if ((fs n).getD []).length < partHeaderSize then partHeader else [], fs)

/-- `_open`. The result of `rename` is not looked at. -/
def openRead (fs : Files Name) : (Bytes × List α) × Files Name :=
  let fs :=
    if (fs .cache).isNone then
      if (fs .old).isSome then (fs.rename .old .cache).getD fs else fs
    else fs
  let (buffer, fs) := openFile .cache fs
  ((buffer, events ((fs .cache).getD [] ++ buffer)), fs)

/-- `get`. -/
def get (c : Cache α) (fs : Files Name) : Option α × Cache α × Files Name :=
  let ((buffer, unread), fs) :=
    match c.read_file with
    | some r => (r, fs)
    | none => openRead fs
  (unread.head?, { c with read_file := some (buffer, unread.tail) }, fs)

/-- `transaction`, which throws when there is one. -/
def transaction (c : Cache α) (fs : Files Name) : Option (Cache α × Files Name) :=
  match c.write_file with
  | some _ => none
  | none =>
    let (buffer, fs) := openFile .new fs
    some ({ c with write_file := some buffer }, fs)

/-- `add`, which throws when there is no transaction. -/
def add (e : α) (c : Cache α) : Option (Cache α) :=
  c.write_file.map fun w => { c with write_file := some (w ++ EventCodec.serialize e) }

/-- Closing a `FILE` empties its buffer; a process that stops empties a part of it. -/
def flush (n : Name) (buffer : Option Bytes) (fs : Files Name) : Files Name :=
  match buffer with
  | some b => fs.append n b
  | none => fs

/-- `_read_file.reset()`. -/
def closeRead (c : Cache α) : Files Name → Files Name := flush .cache (c.read_file.map Prod.fst)

/-- `_write_file.reset()`. -/
def closeWrite (c : Cache α) : Files Name → Files Name := flush .new c.write_file

/-- What `commit` does to the files, step by step. A step that fails throws. -/
def commitSteps (c : Cache α) : List (Files Name → Option (Files Name)) :=
  [fun fs => some (closeWrite c fs),
    fun fs => some (closeRead c fs),
    fun fs => fs.rename .cache .old,
    fun fs => fs.rename .new .cache,
    fun fs => some (fs.remove .old)]

/-- Steps until one throws: whether one did, and the files. -/
def runSteps : List (Files Name → Option (Files Name)) → Files Name → Bool × Files Name
  | [], fs => (false, fs)
  | f :: steps, fs =>
    match f fs with
    | some fs => runSteps steps fs
    | none => (true, fs)

/-- `commit`. Both files are closed whatever happens next. -/
def commit (c : Cache α) (fs : Files Name) : Reply α × Cache α × Files Name :=
  match c.write_file with
  | none => (.done, c, fs)
  | some _ =>
    let (threw, fs) := runSteps (commitSteps c) fs
    (if threw then .threw else .done, ⟨none, none⟩, fs)

/-- `rollback`. -/
def rollback (c : Cache α) (fs : Files Name) : Cache α × Files Name :=
  ({ c with write_file := none }, (closeWrite c fs).remove .new)

/-- One call, or one stop. -/
def step (op : Op α) (s : State α) : Reply α × State α :=
  match op, s.object with
  | .construct, none =>
    let (r, fs) := openRead s.fs
    (.done, ⟨fs, some ⟨some r, none⟩⟩)
  | .get, some c =>
    let (e, c, fs) := get c s.fs
    (.event e, ⟨fs, some c⟩)
  | .transaction, some c =>
    match transaction c s.fs with
    | some (c, fs) => (.done, ⟨fs, some c⟩)
    | none => (.threw, s)
  | .add e, some c =>
    match add e c with
    | some c => (.done, ⟨s.fs, some c⟩)
    | none => (.threw, s)
  | .commit none, some c =>
    let (r, c, fs) := commit c s.fs
    (r, ⟨fs, some c⟩)
  | .commit (some k), some c =>
    -- with no transaction there is nothing to stop in
    match c.write_file with
    | none => (.done, s)
    | some _ => (.stopped, ⟨(runSteps ((commitSteps c).take k) s.fs).2, none⟩)
  | .rollback, some c =>
    let (c, fs) := rollback c s.fs
    (.done, ⟨fs, some c⟩)
  | .destroy, some c => (.done, ⟨closeRead c (closeWrite c s.fs), none⟩)
  | .crash kept_read kept_write, some c =>
    (.stopped,
      ⟨flush .cache (c.read_file.map fun r => r.1.take kept_read)
        (flush .new (c.write_file.map (List.take kept_write)) s.fs), none⟩)
  | _, _ => (.absent, s)

/-- Calls, one after the other. -/
def run : List (Op α) → State α → List (Reply α) × State α
  | [], s => ([], s)
  | op :: ops, s =>
    let (r, s) := step op s
    let (rs, s) := run ops s
    (r :: rs, s)

/-! ## What a cache is for -/

/-- What an object has still to read, once it has begun, and what it has written. -/
structure Opened (α : Type) where
  unread : Option (List α)
  written : Option (List α)

/-- The events that were committed last, and the object if there is one. -/
structure Spec (α : Type) where
  committed : List α
  object : Option (Opened α)

/-- One call. `replaced` says what is left of a commit that is stopped. -/
def Spec.step (replaced : Bool) (op : Op α) (t : Spec α) : Reply α × Spec α :=
  match op, t.object with
  | .construct, none => (.done, { t with object := some ⟨some t.committed, none⟩ })
  | .get, some o =>
    let unread := o.unread.getD t.committed
    (.event unread.head?, { t with object := some { o with unread := some unread.tail } })
  | .transaction, some ⟨unread, none⟩ =>
    (.done, { t with object := some ⟨unread, some []⟩ })
  | .transaction, some ⟨_, some _⟩ => (.threw, t)
  | .add e, some ⟨unread, some l⟩ =>
    (.done, { t with object := some ⟨unread, some (l ++ [e])⟩ })
  | .add _, some ⟨_, none⟩ => (.threw, t)
  | .commit none, some ⟨_, some l⟩ => (.done, ⟨l, some ⟨none, none⟩⟩)
  | .commit (some _), some ⟨_, some l⟩ =>
    (.stopped, ⟨if replaced then l else t.committed, none⟩)
  | .commit _, some ⟨_, none⟩ => (.done, t)
  | .rollback, some ⟨unread, _⟩ => (.done, { t with object := some ⟨unread, none⟩ })
  | .destroy, some _ => (.done, { t with object := none })
  | .crash _ _, some _ => (.stopped, { t with object := none })
  | _, _ => (.absent, t)

/-- A cache that is what it is for may give these replies. -/
inductive Spec.Run : List (Op α) → Spec α → List (Reply α) → Spec α → Prop where
  | nil (t : Spec α) : Run [] t [] t
  | cons (replaced : Bool) {op : Op α} {ops : List (Op α)} {t t' : Spec α} {rs : List (Reply α)}
    (h : Run ops (Spec.step replaced op t).2 rs t') :
    Run (op :: ops) t ((Spec.step replaced op t).1 :: rs) t'

omit [EventCodec α] in
theorem Spec.Run.inv {op : Op α} {ops : List (Op α)} {t t' : Spec α} {r : Reply α}
    {rs : List (Reply α)} (h : Spec.Run (op :: ops) t (r :: rs) t') :
    ∃ replaced, r = (Spec.step replaced op t).1 ∧
      Spec.Run ops (Spec.step replaced op t).2 rs t' := by
  cases h with
  | cons replaced h => exact ⟨replaced, rfl, h⟩

/-- What the files of an earlier run hold. -/
def stored (fs : Files Name) : List α :=
  match fs .cache, fs .old with
  | some b, _ => events b
  | none, some b => events b
  | none, none => []

/-! ## The object and its files -/

/--
Bytes at the end of a file that bring no event. Two objects that open an empty file both
write its header, and a header that was cut is written again.
-/
def Slack (b buffer : Bytes) : Prop := buffer = [] ∨ (b.length ≤ 15 ∧ buffer.length ≤ 8)

theorem slack_header (b : Bytes) :
    Slack b (if b.length < partHeaderSize then partHeader else []) := by
  split
  · rename_i hlt
    rw [partHeaderSize] at hlt
    exact .inr ⟨by omega, Nat.le_refl 8⟩
  · exact .inl rfl

variable {b : Bytes}

theorem Slack.take {buffer : Bytes} (h : Slack b buffer) (n : Nat) : Slack b (buffer.take n) := by
  rcases h with rfl | ⟨h1, h2⟩
  · exact .inl List.take_nil
  · exact .inr ⟨h1, by rw [List.length_take]; omega⟩

theorem events_slack {buffer : Bytes} (h : Slack b buffer) :
    (events (b ++ buffer) : List α) = events b := by
  rcases h with rfl | ⟨h1, h2⟩
  · rw [List.append_nil]
  · have hnil : ∀ x : Bytes, x.length < 24 → (events x : List α) = [] := by
      intro x hx
      unfold events
      split
      · rfl
      · exact EventCodec.parse_short _ (by rw [List.length_drop, partHeaderSize]; omega)
    rw [hnil _ (by rw [List.length_append]; omega), hnil _ (by omega)]

theorem events_written (l : List α) :
    (events (partHeader ++ l.flatMap EventCodec.serialize) : List α) = l := by
  have hlen : partHeader.length = partHeaderSize := rfl
  rw [events, if_neg (by rw [List.length_append, hlen]; omega), ← hlen, List.drop_left,
    EventCodec.parse_serialize]

variable {fs : Files Name}

theorem stored_of_cache (h : fs .cache = some b) :
    (stored fs : List α) = events b := by
  rw [stored, h]

/-- What is in the file of the transaction once its buffer is, when it holds `l`. -/
def Writes (fs : Files Name) (w : Bytes) (l : List α) : Prop :=
  ∃ b, fs .new = some b ∧ b ++ w = partHeader ++ l.flatMap EventCodec.serialize

/-- The cache exists, and what the object may still write to it brings no event. -/
def Readable (fs : Files Name) (c : Cache α) : Prop :=
  ∃ b, fs .cache = some b ∧ ∀ r, c.read_file = some r → Slack b r.1

/-- An object works as what it is for does. -/
structure Opens (fs : Files Name) (c : Cache α) (o : Opened α) : Prop where
  cache : Readable fs c
  unread : o.unread = c.read_file.map Prod.snd
  closed : c.write_file = none → o.written = none
  writes : ∀ w, c.write_file = some w → ∃ l, o.written = some l ∧ Writes fs w l

/-- The files and the object, and what they are for. -/
structure Holds (s : State α) (t : Spec α) : Prop where
  stored : stored s.fs = t.committed
  missing : s.object = none → t.object = none
  opens : ∀ c, s.object = some c → ∃ o, t.object = some o ∧ Opens s.fs c o

variable {l : List α}

theorem holds_none (h : stored fs = l) :
    Holds ⟨fs, none⟩ ⟨l, none⟩ where
  stored := h
  missing := fun _ => rfl
  opens := fun _ hc => by cases hc

variable {c : Cache α} {o : Opened α}

theorem holds_some
    (h : stored fs = l) (ho : Opens fs c o) : Holds ⟨fs, some c⟩ ⟨l, some o⟩ where
  stored := h
  missing := fun hn => by cases hn
  opens := fun _ hc => by cases hc; exact ⟨o, rfl, ho⟩

/-! ## Opening and reading -/

/-- Opening gives what is stored, and keeps it; the file of the transaction is left alone. -/
theorem openRead_spec (fs : Files Name) :
    (openRead fs).1.2 = (stored fs : List α) ∧
    (stored (openRead (α := α) fs).2 : List α) = stored fs ∧
    (openRead (α := α) fs).2 .new = fs .new ∧
    ∃ b, (openRead (α := α) fs).2 .cache = some b ∧ Slack b (openRead (α := α) fs).1.1 := by
  -- after the repair, the cache has what was stored
  obtain ⟨fs₁, h1, hst, hnew⟩ : ∃ fs₁ : Files Name,
      fs₁ = (if (fs .cache).isNone then
        if (fs .old).isSome then (fs.rename .old .cache).getD fs else fs
      else fs) ∧ (events ((fs₁ .cache).getD []) : List α) = stored fs ∧ fs₁ .new = fs .new := by
    refine ⟨_, rfl, ?_⟩
    cases hc : fs .cache with
    | some b => exact ⟨by rw [stored_of_cache hc]; simp [hc], by simp⟩
    | none =>
      cases ho : fs .old with
      | none => exact ⟨by simp [stored, hc, ho, events, partHeaderSize], by simp⟩
      | some b =>
        obtain ⟨fs', hr, -, hdst, hrest⟩ := Files.rename_of_some ho (show Name.old ≠ .cache by decide)
        exact ⟨by simp [hr, hdst, stored, hc, ho], by simp [hr, hrest]⟩
  have hslack := slack_header ((fs₁ .cache).getD [])
  have hev := events_slack (α := α) hslack
  unfold openRead openFile
  rw [← h1]
  simp only [Files.create_self, Option.getD_some]
  refine ⟨hev.trans hst, ?_, by simp [hnew], _, rfl, hslack⟩
  rw [stored_of_cache (Files.create_self _ _), hst]

/-- A cache that exists is opened as it is. -/
theorem openRead_of_cache (h : fs .cache = some b) :
    openRead (α := α) fs =
      ((if b.length < partHeaderSize then partHeader else [], events b), fs) := by
  have hcreate : fs.create .cache = fs := by
    rw [Files.create, h]
    exact Function.update_eq_self_iff.mpr h.symm
  rw [openRead, openFile]
  simp only [h, Option.isNone_some, Bool.false_eq_true, if_false, hcreate, Option.getD_some,
    events_slack (slack_header b)]

variable {w : Bytes}

theorem Writes.of_eq {fs' : Files Name} (h : Writes fs w l)
    (he : fs' .new = fs .new) : Writes fs' w l := by
  obtain ⟨b, hb, hw⟩ := h
  exact ⟨b, he.trans hb, hw⟩

theorem construct_holds (h : stored fs = l) :
    Holds ⟨(openRead (α := α) fs).2, some ⟨some (openRead fs).1, none⟩⟩
      ⟨l, some ⟨some l, none⟩⟩ := by
  obtain ⟨hread, hst, -, b, hb, hs⟩ := openRead_spec (α := α) fs
  refine holds_some (hst.trans h) ⟨⟨b, hb, fun r hr => ?_⟩, ?_, fun _ => rfl, fun w hw => ?_⟩
  · cases hr
    exact hs
  · rw [Option.map_some, hread, h]
  · cases hw

theorem get_holds
    (h : stored fs = l) (ho : Opens fs c o) :
    (get c fs).1 = (o.unread.getD l).head? ∧
    Holds ⟨(get c fs).2.2, some (get c fs).2.1⟩
      ⟨l, some { o with unread := some (o.unread.getD l).tail }⟩ := by
  obtain ⟨⟨b, hb, hs⟩, hun, hcl, hwr⟩ := ho
  unfold get
  cases hr : c.read_file with
  | some r =>
    rw [hr] at hun
    rw [hun]
    refine ⟨rfl, holds_some h ⟨⟨b, hb, fun r' hr' => ?_⟩, rfl, hcl, hwr⟩⟩
    cases hr'
    exact hs r hr
  | none =>
    -- the file is opened first, and gives what is stored
    obtain ⟨hread, hst, hnew, b', hb', hs'⟩ := openRead_spec (α := α) fs
    rw [hr] at hun
    rw [hun]
    have hhead : (openRead fs).1.2.head? = l.head? := by rw [hread, h]
    refine ⟨hhead, holds_some (hst.trans h) ⟨⟨b', hb', fun r' hr' => ?_⟩, ?_, hcl, fun w hw => ?_⟩⟩
    · cases hr'
      exact hs'
    · show some l.tail = some (openRead fs).1.2.tail
      rw [hread, h]
    · obtain ⟨l', hl', hw'⟩ := hwr w hw
      exact ⟨l', hl', hw'.of_eq hnew⟩

/-! ## A transaction -/

/-- What a transaction may find of an earlier one: nothing, or its header. -/
def Fresh (fs : Files Name) : Prop := ∀ b ∈ fs .new, b = [] ∨ b = partHeader

instance (fs : Files Name) : Decidable (Fresh fs) :=
  match h : fs .new with
  | none => isTrue (by unfold Fresh; rw [h]; intro b hb; cases hb)
  | some b => decidable_of_iff (b = [] ∨ b = partHeader) (by simp [Fresh, h])

theorem stored_congr {fs' : Files Name} (h1 : fs' .cache = fs .cache)
    (h2 : fs' .old = fs .old) : (stored fs' : List α) = stored fs := by
  unfold stored
  rw [h1, h2]

omit [EventCodec α] in
theorem transaction_eq (hc : c.write_file = none) (fs : Files Name) :
    transaction c fs =
      some ({ c with write_file := some (openFile .new fs).1 }, fs.create .new) := by
  rw [transaction, hc]
  rfl

theorem transaction_holds
    (h : stored fs = l) (ho : Opens fs c o) (hf : Fresh fs) :
    Holds ⟨fs.create .new, some { c with write_file := some (openFile .new fs).1 }⟩
      ⟨l, some { o with written := some [] }⟩ := by
  obtain ⟨⟨b, hb, hs⟩, hun, -, -⟩ := ho
  refine holds_some ?_ ⟨⟨b, ?_, hs⟩, hun, ?_, ?_⟩
  · exact (stored_congr (Files.create_of_ne _ (by decide)) (Files.create_of_ne _ (by decide))).trans h
  · exact (Files.create_of_ne _ (by decide)).trans hb
  · intro hn; cases hn
  · intro w hw
    refine ⟨[], rfl, _, Files.create_self _ _, ?_⟩
    cases hw
    -- whatever was there, the file has its header and nothing else
    unfold openFile
    simp only [Files.create_self, Option.getD_some, List.flatMap_nil, List.append_nil]
    cases hn : fs .new with
    | none => rfl
    | some b' =>
      rcases hf b' hn with rfl | rfl
      · rfl
      · rfl

theorem add_holds
    {es : List α} (h : stored fs = l) (ho : Opens fs c o) (hw : c.write_file = some w)
    (hes : o.written = some es) (e : α) :
    Holds ⟨fs, some { c with write_file := some (w ++ EventCodec.serialize e) }⟩
      ⟨l, some { o with written := some (es ++ [e]) }⟩ := by
  obtain ⟨hcache, hun, -, hwr⟩ := ho
  refine holds_some h ⟨hcache, hun, nofun, fun w' hw' => ?_⟩
  cases hw'
  obtain ⟨es', hes', b, hb, hbw⟩ := hwr w hw
  obtain rfl : es' = es := Option.some.inj (hes'.symm.trans hes)
  refine ⟨_, rfl, b, hb, ?_⟩
  rw [← List.append_assoc, hbw, List.flatMap_append, List.append_assoc]
  congr 2
  exact (List.append_nil _).symm

theorem flush_of_ne {n m : Name} (h : m ≠ n) (buffer : Option Bytes) (fs : Files Name) :
    flush n buffer fs m = fs m := by
  cases buffer with
  | none => rfl
  | some b => exact Files.append_of_ne _ h _

/-- What is left of the buffer of the file that is read changes nothing. -/
theorem Readable.flush_cache (h : Readable fs c)
    (kept : Bytes → Bytes) (hk : ∀ {b r}, Slack b r → Slack b (kept r)) :
    ∃ b, flush .cache (c.read_file.map fun r => kept r.1) fs .cache = some b ∧
      (events b : List α) = stored fs := by
  obtain ⟨b, hb, hs⟩ := h
  rw [stored_of_cache hb]
  cases hr : c.read_file with
  | none => exact ⟨b, hb, rfl⟩
  | some r =>
    refine ⟨b ++ kept r.1, ?_, events_slack (hk (hs r hr))⟩
    show fs.append .cache (kept r.1) .cache = _
    rw [Files.append_self, hb]
    rfl

theorem Readable.stored_flush (h : Readable fs c)
    (kept : Bytes → Bytes) (hk : ∀ {b r}, Slack b r → Slack b (kept r)) :
    (stored (flush .cache (c.read_file.map fun r => kept r.1) fs) : List α) = stored fs := by
  obtain ⟨b, hb, he⟩ := h.flush_cache kept hk
  rw [stored_of_cache hb, he]

theorem stored_flush_new (buffer : Option Bytes) (fs : Files Name) :
    (stored (flush .new buffer fs) : List α) = stored fs :=
  stored_congr (flush_of_ne (by decide) buffer fs) (flush_of_ne (by decide) buffer fs)

omit [EventCodec α] in
theorem Readable.flush_new (h : Readable fs c)
    (buffer : Option Bytes) : Readable (flush .new buffer fs) c := by
  obtain ⟨b, hb, hs⟩ := h
  exact ⟨b, (flush_of_ne (by decide) buffer fs).trans hb, hs⟩

/--
Where the files are after each step of `commit`. Up to the third one what was stored is
there, under one name or the other; from the fourth one on it is the transaction.
-/
theorem commitSteps_spec (h : Readable fs c)
    (hw : c.write_file = some w) (hb : fs .new = some b) (k : Nat) :
    ∃ fs', runSteps ((commitSteps c).take k) fs = (false, fs') ∧
      (stored fs' : List α) = (if k < 4 then stored fs else events (b ++ w)) ∧
      (4 ≤ k → (fs' .cache).isSome) := by
  -- the two files are closed
  have hst₁ : (stored (closeWrite c fs) : List α) = stored fs := stored_flush_new _ fs
  have hnew₁ : closeWrite c fs .new = some (b ++ w) := by
    rw [closeWrite, hw]
    exact (Files.append_self _ _ _).trans (by rw [hb]; rfl)
  obtain ⟨b₂, hb₂, he₂⟩ : ∃ b₂, closeRead c (closeWrite c fs) .cache = some b₂ ∧
      (events b₂ : List α) = stored (closeWrite c fs) :=
    (h.flush_new c.write_file).flush_cache id fun h => h
  have hnew₂ : closeRead c (closeWrite c fs) .new = some (b ++ w) :=
    (flush_of_ne (by decide) _ _).trans hnew₁
  -- and the three names are moved
  obtain ⟨fs₃, hr₃, hcache₃, hold₃, hrest₃⟩ :=
    Files.rename_of_some hb₂ (show Name.cache ≠ .old by decide)
  obtain ⟨fs₄, hr₄, -, hcache₄, -⟩ :=
    Files.rename_of_some ((hrest₃ .new (by decide) (by decide)).trans hnew₂)
      (show Name.new ≠ .cache by decide)
  have hcache₅ : fs₄.remove .old .cache = some (b ++ w) :=
    (Files.remove_of_ne _ (by decide)).trans hcache₄
  rcases k with _ | _ | _ | _ | _ | k
  · exact ⟨fs, rfl, rfl, by omega⟩
  · exact ⟨_, rfl, hst₁, by omega⟩
  · exact ⟨_, rfl, (stored_of_cache hb₂).trans (he₂.trans hst₁), by omega⟩
  · refine ⟨fs₃, by simp [commitSteps, runSteps, hr₃], ?_, by omega⟩
    rw [stored, hcache₃, hold₃]
    exact he₂.trans hst₁
  · exact ⟨fs₄, by simp [commitSteps, runSteps, hr₃, hr₄], stored_of_cache hcache₄,
      fun _ => by rw [hcache₄]; rfl⟩
  · refine ⟨fs₄.remove .old, by simp [commitSteps, runSteps, hr₃, hr₄], ?_,
      fun _ => by rw [hcache₅]; rfl⟩
    rw [if_neg (by omega)]
    exact stored_of_cache hcache₅

/-- A commit that is not stopped makes the transaction what is stored. -/
theorem commit_spec (h : Readable fs c)
    (hw : c.write_file = some w) (hb : fs .new = some b) :
    ∃ fs', commit c fs = (.done, ⟨none, none⟩, fs') ∧ (stored fs' : List α) = events (b ++ w) ∧
      (fs' .cache).isSome := by
  obtain ⟨fs', hrun, hst, hcache⟩ := commitSteps_spec h hw hb 5
  refine ⟨fs', ?_, hst, hcache (by omega)⟩
  have hall : (commitSteps c).take 5 = commitSteps c := rfl
  rw [hall] at hrun
  rw [commit, hw]
  show ((if (runSteps (commitSteps c) fs).1 then _ else _), _, (runSteps (commitSteps c) fs).2) = _
  rw [hrun]
  rfl

theorem Opens.written_events {es : List α}
    (ho : Opens fs c o) (hw : c.write_file = some w) (hes : o.written = some es) :
    ∃ b, fs .new = some b ∧ (events (b ++ w) : List α) = es := by
  obtain ⟨es', hes', b, hb, hbw⟩ := ho.writes w hw
  obtain rfl : es' = es := Option.some.inj (hes'.symm.trans hes)
  exact ⟨b, hb, by rw [hbw, events_written]⟩

/-! ## Every call -/

/-- A transaction that begins finds nothing of an earlier one. -/
def StartsFresh (op : Op α) (s : State α) : Prop :=
  op = .transaction → ∀ c, s.object = some c → c.write_file = none → Fresh s.fs

variable {s : State α}

/-- **One call does what a cache is for**, and so does a process that stops. -/
theorem step_holds {t : Spec α} (h : Holds s t) {op : Op α}
    (hf : StartsFresh op s) :
    ∃ replaced, (Spec.step replaced op t).1 = (step op s).1 ∧
      Holds (step op s).2 (Spec.step replaced op t).2 := by
  obtain ⟨fs, object⟩ := s
  obtain ⟨l, o⟩ := t
  obtain ⟨hst, hmissing, hopens⟩ := h
  cases object with
  | none =>
    obtain rfl : o = none := hmissing rfl
    refine ⟨true, ?_⟩
    cases op with
    | construct => exact ⟨rfl, construct_holds hst⟩
    | commit stop => cases stop <;> exact ⟨rfl, holds_none hst⟩
    | _ => exact ⟨rfl, holds_none hst⟩
  | some c =>
    obtain ⟨⟨unread, written⟩, rfl, ho⟩ := hopens c rfl
    -- both sides have a transaction, or none has
    have hboth : (c.write_file = none ∧ written = none) ∨
        ∃ w es, c.write_file = some w ∧ written = some es := by
      cases hw : c.write_file with
      | none => exact .inl ⟨rfl, ho.closed hw⟩
      | some w =>
        obtain ⟨es, hes, -⟩ := ho.writes w hw
        exact .inr ⟨w, es, rfl, hes⟩
    cases op with
    | construct => exact ⟨true, rfl, holds_some hst ho⟩
    | get =>
      obtain ⟨he, hh⟩ := get_holds hst ho
      exact ⟨true, congrArg Reply.event he.symm, hh⟩
    | transaction =>
      refine ⟨true, ?_⟩
      rcases hboth with ⟨hw, rfl⟩ | ⟨w, es, hw, rfl⟩
      · simp only [step, transaction_eq hw, Spec.step]
        exact ⟨trivial, transaction_holds hst ho (hf rfl c rfl hw)⟩
      · simp only [step, transaction, hw, Spec.step]
        exact ⟨trivial, holds_some hst ho⟩
    | add e =>
      refine ⟨true, ?_⟩
      rcases hboth with ⟨hw, rfl⟩ | ⟨w, es, hw, rfl⟩
      · simp only [step, add, hw, Spec.step, Option.map_none]
        exact ⟨trivial, holds_some hst ho⟩
      · simp only [step, add, hw, Spec.step, Option.map_some]
        exact ⟨trivial, add_holds hst ho hw rfl e⟩
    | commit stop =>
      rcases hboth with ⟨hw, rfl⟩ | ⟨w, es, hw, rfl⟩
      · refine ⟨true, ?_⟩
        cases stop with
        | none =>
          simp only [step, commit, hw, Spec.step]
          exact ⟨trivial, holds_some hst ho⟩
        | some k =>
          simp only [step, hw, Spec.step]
          exact ⟨trivial, holds_some hst ho⟩
      · cases stop with
        | none =>
          obtain ⟨b, hb, hev⟩ := ho.written_events hw rfl
          obtain ⟨fs', hc, hst', hcache⟩ := commit_spec ho.cache hw hb
          obtain ⟨b', hb'⟩ := Option.isSome_iff_exists.mp hcache
          refine ⟨true, ?_⟩
          simp only [step, hc, Spec.step]
          exact ⟨trivial, holds_some (hst'.trans hev) ⟨⟨b', hb', nofun⟩, rfl, fun _ => rfl, nofun⟩⟩
        | some k =>
          -- the step the process stops after decides what is left
          obtain ⟨b, hb, hev⟩ := ho.written_events hw rfl
          obtain ⟨fs', hr, hst', -⟩ := commitSteps_spec ho.cache hw hb k
          refine ⟨decide (4 ≤ k), ?_⟩
          simp only [step, hw, hr, Spec.step]
          refine ⟨trivial, holds_none (hst'.trans ?_)⟩
          by_cases hk : k < 4
          · rw [if_pos hk, if_neg (by simpa using hk), hst]
          · rw [if_neg hk, if_pos (by simpa using hk), hev]
    | rollback =>
      have hst₁ : stored (closeWrite c fs) = l := (stored_flush_new _ fs).trans hst
      obtain ⟨b, hb, hs⟩ := ho.cache.flush_new c.write_file
      refine ⟨true, rfl, holds_some ?_ ?_⟩
      · exact (stored_congr (Files.remove_of_ne _ (by decide)) (Files.remove_of_ne _ (by decide))).trans
          hst₁
      · exact ⟨⟨b, (Files.remove_of_ne _ (by decide)).trans hb, hs⟩, ho.unread, fun _ => rfl, nofun⟩
    | destroy =>
      have hst₁ := (ho.cache.flush_new c.write_file).stored_flush id fun h => h
      exact ⟨true, rfl, holds_none (hst₁.trans ((stored_flush_new _ fs).trans hst))⟩
    | crash kept_read kept_write =>
      have hst₁ := (ho.cache.flush_new (c.write_file.map (List.take kept_write))).stored_flush
        (List.take kept_read) fun h => h.take _
      exact ⟨true, rfl, holds_none (hst₁.trans ((stored_flush_new _ fs).trans hst))⟩

/-- Every transaction of a run begins with nothing of an earlier one. -/
def FreshRun : List (Op α) → State α → Prop
  | [], _ => True
  | op :: ops, s => StartsFresh op s ∧ FreshRun ops (step op s).2

theorem run_holds {ops : List (Op α)} {t : Spec α} (h : Holds s t)
    (hf : FreshRun ops s) :
    ∃ t', Spec.Run ops t (run ops s).1 t' ∧ Holds (run ops s).2 t' := by
  induction ops generalizing s t with
  | nil => exact ⟨t, .nil t, h⟩
  | cons op ops ih =>
    obtain ⟨hop, hops⟩ := hf
    obtain ⟨replaced, hreply, hstep⟩ := step_holds h hop
    obtain ⟨t', hrun, hend⟩ := ih hstep hops
    refine ⟨t', ?_, hend⟩
    show Spec.Run (op :: ops) t ((step op s).1 :: (run ops (step op s).2).1) t'
    rw [← hreply]
    exact .cons replaced hrun

/-- The replies to `n` calls to `get`. -/
def gets (n : Nat) (l : List α) : List (Reply α) := (List.range n).map fun i => .event l[i]?

omit [EventCodec α] in
theorem gets_succ (n : Nat) (l : List α) : gets (n + 1) l = .event l.head? :: gets n l.tail := by
  rw [gets, List.range_succ_eq_map, List.map_cons, List.map_map, ← List.head?_eq_getElem?, gets]
  congr 1
  refine List.map_congr_left fun i _ => ?_
  show Reply.event l[i + 1]? = Reply.event l.tail[i]?
  rw [List.getElem?_tail]

theorem run_gets (h : Holds s ⟨l, some o⟩) (n : Nat) :
    (run (List.replicate n .get) s).1 = gets n (o.unread.getD l) := by
  induction n generalizing s o with
  | zero => rfl
  | succ n ih =>
    obtain ⟨replaced, hreply, hstep⟩ := @step_holds _ _ _ _ h .get nofun
    have hrest : (run (List.replicate n .get) (step .get s).2).1 = gets n (o.unread.getD l).tail :=
      ih hstep
    rw [List.replicate_succ, gets_succ, ← hrest]
    exact congrArg (· :: (run (List.replicate n .get) (step .get s).2).1) hreply.symm

/--
**Transactions are atomic and durable**, in a run where each begins with nothing of an
earlier one: from whatever files, the calls give the replies of a cache that has the events
committed last, and if the process stops, these are what it reads when it is there again.
-/
theorem transactions_atomic (fs : Files Name) (ops : List (Op α))
    (h : FreshRun ops ⟨fs, none⟩) :
    ∃ t, Spec.Run ops ⟨stored fs, none⟩ (run ops ⟨fs, none⟩).1 t ∧
      ∀ kept_read kept_write n,
        (run (.crash kept_read kept_write :: .construct :: List.replicate n .get)
          (run ops ⟨fs, none⟩).2).1.drop 2 = gets n t.committed := by
  obtain ⟨t, hrun, hend⟩ := run_holds (holds_none rfl) h
  refine ⟨t, hrun, fun kept_read kept_write n => ?_⟩
  obtain ⟨_, -, hcrash⟩ := @step_holds _ _ _ _ hend (.crash kept_read kept_write) nofun
  have hread : ∀ replaced replaced', (Spec.step replaced .construct
      (Spec.step replaced' (.crash kept_read kept_write) t).2).2 =
        ⟨t.committed, some ⟨some t.committed, none⟩⟩ := by
    intro _ _
    obtain ⟨l, o⟩ := t
    cases o with
    | none => rfl
    | some o => rfl
  obtain ⟨_, -, hopen⟩ := @step_holds _ _ _ _ hcrash .construct nofun
  rw [hread] at hopen
  exact run_gets hopen n

/-! ## A transaction over a stale one -/

/-- An object that is destroyed leaves its transaction, and the next one goes on from there. -/
def overStale (e₁ e₂ : α) : List (Op α) :=
  [.construct, .transaction, .add e₁, .destroy, .construct, .transaction, .add e₂, .commit none,
    .get]

theorem run_overStale (e₁ e₂ : α) :
    (run (overStale e₁ e₂) ⟨fun _ => none, none⟩).1 =
      [.done, .done, .done, .done, .done, .done, .done, .done, .event (some e₁)] := by
  have hev : (events (partHeader ++ (EventCodec.serialize e₁ ++ EventCodec.serialize e₂)) : List α) =
      [e₁, e₂] := by
    have h := events_written [e₁, e₂]
    simpa using h
  have hlen : partHeader.length = 8 := rfl
  simp [overStale, run, step, openRead, openFile, transaction, add, commit, commitSteps, runSteps,
    Files.rename, closeRead, closeWrite, flush, get, partHeaderSize, hlen, hev]

end Model

/-! ## The events of BBDO -/

/-- The events that BBDO gives back as they are. -/
abbrev Carried (reg : Io.Registry) := {d : Io.Data reg // Bbdo.Sendable d ∧ Bbdo.asSent d = d}

open Classical in
/-- What is read of a result, if it is such an event. -/
noncomputable def carried {reg : Io.Registry} : Bbdo.ReadResult reg → Option (Carried reg)
  | .event d => if h : Bbdo.Sendable d ∧ Bbdo.asSent d = d then some ⟨d, h⟩ else none
  | _ => none

noncomputable instance (reg : Io.Registry) : EventCodec (Carried reg) where
  serialize d := (Bbdo.serialize d.1).toOption.getD []
  parse b := (Bbdo.readAll reg .init [⟨b, false⟩]).1.filterMap carried
  parse_serialize l := by
    have hs : ∀ d ∈ l.map Subtype.val, Bbdo.Sendable d := by
      intro d hd
      obtain ⟨e, -, rfl⟩ := List.mem_map.mp hd
      exact e.2.1
    obtain ⟨⟨outs, hser, hread⟩, -⟩ := Bbdo.readAll_serialize _ hs
    have hbytes : l.flatMap (fun d => (Bbdo.serialize d.1).toOption.getD []) = outs.flatten := by
      have h := congrArg (List.map fun r => r.toOption.getD []) hser
      rw [List.map_map, List.map_map, List.map_map] at h
      rw [List.flatMap_def]
      exact congrArg List.flatten (h.trans (List.map_id _))
    rw [hbytes, hread [⟨outs.flatten, false⟩] (List.append_nil _), List.map_map, List.filterMap_map]
    -- what is sent of such an event is the event
    refine (List.filterMap_congr fun d _ => ?_).trans List.filterMap_some
    show carried (.event (Bbdo.asSent d.1)) = some d
    rw [d.2.2]
    exact dif_pos d.2
  parse_short b hb := by
    have hturn : Bbdo.turn ⟨b, [], 0⟩ [] = (some .shutdown, ⟨b, [], 0⟩, []) :=
      Bbdo.turn_short hb
    have habs : Bbdo.absorb .init [⟨b, false⟩] = ⟨b, [], 0⟩ := by
      simp [Bbdo.absorb, Bbdo.pending, Bbdo.received, Bbdo.Stream.init]
    rw [Bbdo.readAll_eq_contents, Bbdo.contents_absorb, habs,
      Bbdo.contents_shutdown (Bbdo.readContent_done hturn)]
    rfl

/-- Two states of hosts, whose members that are not serialized are as the constructor sets them. -/
def hostStatus (host : UInt32) : Carried Bbdo.statusRegistry :=
  ⟨Bbdo.status host [] 0, Bbdo.sendable_status (by decide) (by decide), rfl⟩

/-- **Events of a transaction that was never committed appear.** -/
theorem not_transactions_atomic :
    ¬ ∃ t, Spec.Run (overStale (hostStatus 1) (hostStatus 2)) ⟨stored fun _ => none, none⟩
      (run (overStale (hostStatus 1) (hostStatus 2)) ⟨fun _ => none, none⟩).1 t := by
  intro ⟨t, h⟩
  rw [run_overStale] at h
  -- eight calls that are done, then the event of the second transaction
  iterate 8 obtain ⟨_, -, h⟩ := h.inv
  obtain ⟨_, hreply, -⟩ := h.inv
  have he : hostStatus 1 = hostStatus 2 := Option.some.inj (Reply.event.inj hreply)
  have hm := congrArg (fun e : Carried Bbdo.statusRegistry => Bbdo.payload e.1.members) he
  rw [hostStatus, hostStatus, Bbdo.payload_status, Bbdo.payload_status] at hm
  exact absurd hm (by decide)

/-- A transaction that is rolled back leaves nothing to the next one. -/
def afterRollback (e₁ e₂ : Carried Bbdo.statusRegistry) : List (Op (Carried Bbdo.statusRegistry)) :=
  [.construct, .transaction, .add e₁, .rollback, .transaction, .add e₂, .commit none]

theorem transactions_atomic_rollback :
    ∃ t, Spec.Run (afterRollback (hostStatus 1) (hostStatus 2)) ⟨stored fun _ => none, none⟩
        (run (afterRollback (hostStatus 1) (hostStatus 2)) ⟨fun _ => none, none⟩).1 t ∧
      ∀ kept_read kept_write n,
        (run (.crash kept_read kept_write :: .construct :: List.replicate n .get)
          (run (afterRollback (hostStatus 1) (hostStatus 2)) ⟨fun _ => none, none⟩).2).1.drop 2 =
          gets n t.committed := by
  refine transactions_atomic _ _ ⟨nofun, fun _ c hc hw b hb => ?_, nofun, nofun,
    fun _ c hc hw b hb => ?_, nofun, nofun, trivial⟩
  · cases hb
  · cases hb

end CentreonBroker.PersistentCache
