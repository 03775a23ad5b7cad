import CentreonBroker.Lib.FileSystem

/-!
# A queue cut into several files

A splitter writes at the end of its last part and reads from its first one. It
goes to a new part when a write would make the current one too large, and to the
next part when the current one is read to its end. Both sides use one `FILE`
while they are in the same part, the reader opens its own otherwise.

With `_auto_delete` the reader removes a part whose end it has reached, and that
may be the part being written: its name goes, the `FILE` stays.

Parts are named by a function of their number. In `splitter.cc` that is
`get_file_path`; nothing here depends on what the names are.
-/

namespace CentreonBroker.File

open Bytes

/-- The members of `file::splitter`. An opened `FILE` is the inode it leads to. -/
structure Splitter where
  auto_delete : Bool
  max_file_size : Nat
  rfile : Option Nat
  rid : Nat
  roffset : Nat
  wfile : Option Nat
  wid : Nat
  woffset : Nat
  deriving DecidableEq, Repr

/-- `2 * sizeof(uint32_t)`. -/
def partHeaderSize : Nat := 8

/-- The bytes at the beginning of each part: zero, then the size of the header. -/
def partHeader : Bytes := htonl 0 ++ htonl 8

/-- What the constructor makes of `max_file_size`: no limit for zero, and a minimum. -/
def maxFileSize (max_file_size : Int) : Nat :=
  if max_file_size = 0 then 0x7fffffffffffffff
  else if max_file_size < 10000 then 10000
  else max_file_size.toNat

/--
The loop of the constructor over the numbers of the parts that exist. Numbers
have no bound here, so that what `_rid` starts from, the largest `int`, is above
all of them: it is `none`.
-/
def scanIds (vals : List Int) : Option Int × Int :=
  vals.foldl
    (fun ids val =>
      (if ids.1.all (val < ·) then some val else ids.1, if val > ids.2 then val else ids.2))
    (none, 0)

/-- `_rid` and `_wid`, as the constructor sets them. -/
def firstIds (vals : List Int) : Nat × Nat :=
  let (rid, wid) := scanIds vals
  let rid :=
    match rid with
    | none => 0
    | some rid => if rid < 0 then 0 else rid.toNat
  (rid, wid.toNat)

section Operations

variable {ν : Type} [DecidableEq ν] (path : Nat → ν)

/-- `_open_read_file`. `_rfile` stays null when the part does not exist. -/
def openReadFile (s : Splitter) (fs : FileSystem ν) : Splitter :=
  if s.rid = s.wid ∧ s.wfile.isSome then
    { s with rfile := s.wfile, roffset := partHeaderSize }
  else
    match fs.find (path s.rid) with
    | some f => { s with rfile := some f, roffset := partHeaderSize }
    | none => { s with rfile := none }

/-- `_open_write_file`. -/
def openWriteFile (s : Splitter) (fs : FileSystem ν) : Splitter × FileSystem ν :=
  let (f, fs) :=
    match if s.wid = s.rid then s.rfile else none with
    | some f => (f, fs)
    | none => fs.openAppend (path s.wid)
  let woffset := (fs.content f).length
  if woffset < partHeaderSize then
    ({ s with wfile := some f, woffset := partHeaderSize }, fs.append f partHeader)
  else ({ s with wfile := some f, woffset := woffset }, fs)

/-- The constructor, given the numbers of the parts that exist. -/
def start (max_file_size : Int) (auto_delete : Bool) (vals : List Int) (fs : FileSystem ν) :
    Splitter × FileSystem ν :=
  openWriteFile path
    { auto_delete := auto_delete, max_file_size := maxFileSize max_file_size, rfile := none,
      rid := (firstIds vals).1, roffset := 0, wfile := none, wid := (firstIds vals).2,
      woffset := 0 }
    fs

/-- The end of `write`, once the part is chosen: the buffer goes to the end of the file. -/
def fwrite (s : Splitter) (fs : FileSystem ν) (buffer : Bytes) : Splitter × FileSystem ν :=
  match s.wfile with
  | some f => ({ s with woffset := s.woffset + buffer.length }, fs.append f buffer)
  -- not reached: opening a part that cannot be opened throws
  | none => (s, fs)

/-- `write`. -/
def write (s : Splitter) (fs : FileSystem ν) (buffer : Bytes) : Splitter × FileSystem ν :=
  let (s, fs) := if s.wfile.isNone then openWriteFile path s fs else (s, fs)
  let (s, fs) :=
    if s.max_file_size < s.woffset + buffer.length then
      openWriteFile path { s with wid := s.wid + 1 } fs
    else (s, fs)
  fwrite s fs buffer

/-- How a call to `read` ends. -/
inductive ReadStatus where
  /-- Some bytes, at least one. -/
  | bytes (b : Bytes)
  /-- Zero: the part to read does not exist. -/
  | missing
  /-- Nothing was asked for: zero, or an error left in `errno` by something else. -/
  | idle
  /-- `exceptions::shutdown`. -/
  | shutdown
  deriving DecidableEq, Repr

/-- The file that `read` starts with. -/
def readFile (s : Splitter) (fs : FileSystem ν) : Splitter :=
  if s.rfile.isNone then openReadFile path s fs else s

theorem rid_openReadFile (s : Splitter) (fs : FileSystem ν) :
    (openReadFile path s fs).rid = s.rid ∧ (openReadFile path s fs).wid = s.wid := by
  unfold openReadFile
  split
  · exact ⟨rfl, rfl⟩
  · split <;> exact ⟨rfl, rfl⟩

theorem rid_readFile (s : Splitter) (fs : FileSystem ν) :
    (readFile path s fs).rid = s.rid ∧ (readFile path s fs).wid = s.wid := by
  unfold readFile
  split
  · exact rid_openReadFile path s fs
  · exact ⟨rfl, rfl⟩

/-- `read`. -/
def read (max_size : Nat) (s : Splitter) (fs : FileSystem ν) :
    ReadStatus × Splitter × FileSystem ν :=
  let s₁ := readFile path s fs
  match s₁.rfile with
  | none => (.missing, s₁, fs)
  | some f =>
    let b := ((fs.content f).drop s₁.roffset).take max_size
    if b ≠ [] then (.bytes b, { s₁ with roffset := s₁.roffset + b.length }, fs)
    else if max_size = 0 then (.idle, s₁, fs)
    else
      -- `feof`
      let fs₁ := if s₁.auto_delete then fs.remove (path s₁.rid) else fs
      if _h : s₁.rid < s₁.wid then
        read max_size (openReadFile path { s₁ with rid := s₁.rid + 1 } fs₁) fs₁
      else (.shutdown, s₁, fs₁)
termination_by s.wid - s.rid
decreasing_by
  obtain ⟨h1, h2⟩ := rid_readFile path s fs
  rw [(rid_openReadFile path _ _).1, (rid_openReadFile path _ _).2]
  dsimp only [s₁] at _h ⊢
  omega

end Operations

end CentreonBroker.File
