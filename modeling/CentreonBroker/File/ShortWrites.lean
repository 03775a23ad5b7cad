import CentreonBroker.File.Frame
import Mathlib.Combinatorics.Enumerative.Composition

/-!
# Writes that are short

`fwrite` may write less than it is asked for, when the disk is almost full or when a signal
comes. What its calls write until nothing remains is a composition of the size: positive numbers
with that sum. `_open_write_file` goes on behind what was written of the header. `write` counts
what remains, and starts at the beginning of the buffer again.
-/

namespace CentreonBroker.File

open Bytes

/-! ## The loops -/

section Loops

variable {ν : Type}

/-- The loop of `_open_write_file` over the header, `size` bytes of which are written. -/
def headerLoop (f : Nat) : List Nat → Nat → FileSystem ν → FileSystem ν
  | [], _, fs => fs
  | n :: counts, size, fs =>
    if size < partHeader.length then
      headerLoop f counts (size + n) (fs.append f ((partHeader.drop size).take n))
    else fs

/-- The loop of `write`: `_woffset` and the files, once nothing remains. -/
def writeLoop (f : Nat) (buffer : Bytes) : List Nat → Nat → Nat → FileSystem ν → Nat × FileSystem ν
  | [], _, woffset, fs => (woffset, fs)
  | wb :: counts, remaining, woffset, fs =>
    if 0 < remaining then
      writeLoop f buffer counts (remaining - wb) (woffset + wb) (fs.append f (buffer.take wb))
    else (woffset, fs)

end Loops

section Operations

variable {ν : Type} [DecidableEq ν] (path : Nat → ν)

/-- `_open_write_file`, where the header is written in these pieces. -/
def shortOpenWriteFile (header : Composition partHeader.length) (s : Splitter) (fs : FileSystem ν) :
    Splitter × FileSystem ν :=
  let (f, fs) :=
    match if s.wid = s.rid then s.rfile else none with
    | some f => (f, fs)
    | none => fs.openAppend (path s.wid)
  let woffset := (fs.content f).length
  if woffset < partHeaderSize then
    ({ s with wfile := some f, woffset := partHeaderSize }, headerLoop f header.blocks 0 fs)
  else ({ s with wfile := some f, woffset := woffset }, fs)

/-- The beginning of `write`: the file that a buffer of this size goes to. -/
def shortSelectFile (headers : Fin 2 → Composition partHeader.length) (size : Nat) (s : Splitter)
    (fs : FileSystem ν) : Splitter × FileSystem ν :=
  let (s, fs) :=
    if s.wfile.isNone then shortOpenWriteFile path (headers ⟨0, Nat.zero_lt_two⟩) s fs else (s, fs)
  if s.max_file_size < s.woffset + size then
    shortOpenWriteFile path (headers ⟨1, Nat.one_lt_two⟩) { s with wid := s.wid + 1 } fs
  else (s, fs)

/-- `write`, where the headers and the buffer are written in these pieces. -/
def shortWrite (headers : Fin 2 → Composition partHeader.length) {buffer : Bytes}
    (counts : Composition buffer.length) (s : Splitter) (fs : FileSystem ν) :
    Splitter × FileSystem ν :=
  let (s, fs) := shortSelectFile path headers buffer.length s fs
  match s.wfile with
  | some f =>
    let (woffset, fs) := writeLoop f buffer counts.blocks buffer.length s.woffset fs
    ({ s with woffset := woffset }, fs)
  -- not reached: opening a part that cannot be opened throws
  | none => (s, fs)

end Operations

/-! ## What a write is for -/

section Spec

variable {ν : Type}

/-- A buffer is at the end of the write file, and the offset is behind it. -/
structure Appended (buffer : Bytes) (before after : Splitter × FileSystem ν) : Prop where
  wfile : after.1.wfile = before.1.wfile
  content : ∀ f, before.1.wfile = some f → after.2.content f = before.2.content f ++ buffer
  others : ∀ i, before.1.wfile ≠ some i → after.2.content i = before.2.content i
  dir : after.2.dir = before.2.dir
  woffset : after.1.woffset = before.1.woffset + buffer.length

/-- Each call to `fwrite` finds at the beginning of the buffer the bytes that come next. -/
def Repeats (buffer : Bytes) (counts : List Nat) : Prop :=
  ∀ pre wb post, counts = pre ++ wb :: post → buffer.take wb = (buffer.drop pre.sum).take wb

end Spec

/-! ## The header -/

section Header

variable {ν : Type}

theorem append_append (fs : FileSystem ν) (f : Nat) (b b' : Bytes) :
    (fs.append f b).append f b' = fs.append f (b ++ b') := by
  simp [FileSystem.append, Function.update_idem, List.append_assoc]

theorem append_nil (fs : FileSystem ν) (f : Nat) : fs.append f [] = fs := by
  simp [FileSystem.append]

/-- What is left of the header is written, in whichever pieces. -/
theorem headerLoop_eq (f : Nat) {counts : List Nat} (hpos : ∀ n ∈ counts, 0 < n) {size : Nat}
    (hsum : counts.sum + size = partHeader.length) (fs : FileSystem ν) :
    headerLoop f counts size fs = fs.append f (partHeader.drop size) := by
  induction counts generalizing size fs with
  | nil =>
    rw [List.sum_nil, Nat.zero_add] at hsum
    rw [headerLoop, hsum, List.drop_length, append_nil]
  | cons n counts ih =>
    have hn := hpos n List.mem_cons_self
    rw [List.sum_cons] at hsum
    rw [headerLoop, if_pos (by omega),
      ih (fun k hk => hpos k (List.mem_cons_of_mem n hk)) (by omega), append_append,
      ← List.drop_drop, List.take_append_drop]

variable [DecidableEq ν] (path : Nat → ν)

/-- **A header is whole**, whichever way it is written. -/
theorem shortOpenWriteFile_eq (header : Composition partHeader.length) (s : Splitter)
    (fs : FileSystem ν) : shortOpenWriteFile path header s fs = openWriteFile path s fs := by
  have hloop : ∀ f (fs : FileSystem ν), headerLoop f header.blocks 0 fs = fs.append f partHeader :=
    fun f fs => headerLoop_eq f (fun _ => header.blocks_pos) header.blocks_sum fs
  -- the two bodies have a match each, of the same shape
  simp only [shortOpenWriteFile, openWriteFile, hloop] <;> rfl

/-- The file that a buffer of this size goes to, with `openWriteFile`. -/
def selectFile (size : Nat) (s : Splitter) (fs : FileSystem ν) : Splitter × FileSystem ν :=
  let (s, fs) := if s.wfile.isNone then openWriteFile path s fs else (s, fs)
  if s.max_file_size < s.woffset + size then openWriteFile path { s with wid := s.wid + 1 } fs
  else (s, fs)

theorem shortSelectFile_eq (headers : Fin 2 → Composition partHeader.length) (size : Nat)
    (s : Splitter) (fs : FileSystem ν) :
    shortSelectFile path headers size s fs = selectFile path size s fs := by
  simp only [shortSelectFile, selectFile, shortOpenWriteFile_eq]

omit [DecidableEq ν] in
theorem wfile_headed (s : Splitter) (i : Nat) (fs : FileSystem ν) :
    (headed s i fs).1.wfile = some i := by
  unfold headed
  split
  · rfl
  · rfl

theorem wfile_openWriteFile (s : Splitter) (fs : FileSystem ν) :
    ∃ f, (openWriteFile path s fs).1.wfile = some f := by
  cases h : (if s.wid = s.rid then s.rfile else none) with
  | some i => exact ⟨i, by rw [openWriteFile_shared h, wfile_headed]⟩
  | none => exact ⟨_, by rw [openWriteFile_own h, wfile_headed]⟩

theorem wfile_selectFile (size : Nat) (s : Splitter) (fs : FileSystem ν) :
    ∃ f, (selectFile path size s fs).1.wfile = some f := by
  have hopen : ∃ f,
      (if s.wfile.isNone then openWriteFile path s fs else (s, fs)).1.wfile = some f := by
    split
    · exact wfile_openWriteFile path s fs
    · rename_i hsome
      exact Option.ne_none_iff_exists'.mp fun hnone => hsome (hnone ▸ rfl)
  unfold selectFile
  generalize (if s.wfile.isNone then openWriteFile path s fs else (s, fs)) = opened at hopen
  dsimp only
  split
  · exact wfile_openWriteFile path _ _
  · exact hopen

end Header

/-! ## The buffer -/

section Buffer

variable {ν : Type}

/-- The pieces that are written, each from the beginning of the buffer. -/
def pieces (buffer : Bytes) (counts : List Nat) : Bytes := (counts.map buffer.take).flatten

/-- The offset always moves by the size; what is in the file are the pieces. -/
theorem writeLoop_eq (f : Nat) (buffer : Bytes) {counts : List Nat} (hpos : ∀ n ∈ counts, 0 < n)
    (woffset : Nat) (fs : FileSystem ν) :
    writeLoop f buffer counts counts.sum woffset fs =
      (woffset + counts.sum, fs.append f (pieces buffer counts)) := by
  induction counts generalizing woffset fs with
  | nil => rw [writeLoop, pieces, List.map_nil, List.flatten_nil, append_nil]; rfl
  | cons wb counts ih =>
    have hwb := hpos wb List.mem_cons_self
    rw [List.sum_cons, writeLoop, if_pos (by omega), Nat.add_sub_cancel_left,
      ih fun k hk => hpos k (List.mem_cons_of_mem wb hk), append_append, Nat.add_assoc]
    rfl

/-- The pieces make up what is behind `o` bytes of the buffer exactly when each repeats what is
there. -/
theorem pieces_eq_drop_iff (buffer : Bytes) {counts : List Nat} {o : Nat}
    (hsum : counts.sum + o = buffer.length) : pieces buffer counts = buffer.drop o ↔
      ∀ pre wb post, counts = pre ++ wb :: post →
        buffer.take wb = (buffer.drop (o + pre.sum)).take wb := by
  induction counts generalizing o with
  | nil =>
    rw [List.sum_nil, Nat.zero_add] at hsum
    rw [hsum, List.drop_length]
    exact iff_of_true rfl fun pre wb post h => absurd h.symm (by simp)
  | cons wb counts ih =>
    rw [List.sum_cons] at hsum
    have hlength : (buffer.take wb).length = ((buffer.drop o).take wb).length := by
      rw [List.length_take, List.length_take, List.length_drop]
      omega
    have hsplit : pieces buffer (wb :: counts) = buffer.drop o ↔
        buffer.take wb = (buffer.drop o).take wb ∧ pieces buffer counts = buffer.drop (o + wb) := by
      rw [← List.drop_drop]
      conv_lhs => rhs; rw [← List.take_append_drop wb (buffer.drop o)]
      exact ⟨fun h => List.append_inj h hlength, fun ⟨h, h'⟩ => congrArg₂ _ h h'⟩
    rw [hsplit, ih (by omega)]
    constructor
    · rintro ⟨hfirst, hrest⟩ pre w post h
      cases pre with
      | nil =>
        obtain ⟨rfl, -⟩ := List.cons.inj h
        exact hfirst
      | cons _ pre =>
        obtain ⟨rfl, htail⟩ := List.cons.inj h
        rw [List.sum_cons, ← Nat.add_assoc]
        exact hrest pre w post htail
    · intro h
      refine ⟨h [] wb counts rfl, fun pre w post hcounts => ?_⟩
      have hw := h (wb :: pre) w post (congrArg (wb :: ·) hcounts)
      rwa [List.sum_cons, ← Nat.add_assoc] at hw

theorem pieces_eq_iff {buffer : Bytes} (counts : Composition buffer.length) :
    pieces buffer counts.blocks = buffer ↔ Repeats buffer counts.blocks := by
  have h := @pieces_eq_drop_iff buffer counts.blocks 0 counts.blocks_sum
  rw [List.drop_zero] at h
  rw [h, Repeats]
  simp only [Nat.zero_add]

variable [DecidableEq ν] (path : Nat → ν)

/-- What a write leaves: the offset has moved by the size, and the pieces are in the file. -/
theorem shortWrite_eq (headers : Fin 2 → Composition partHeader.length) {buffer : Bytes}
    (counts : Composition buffer.length) (s : Splitter) (fs : FileSystem ν) :
    shortWrite path headers counts s fs =
      match (selectFile path buffer.length s fs).1.wfile with
      | some f => ({ (selectFile path buffer.length s fs).1 with
            woffset := (selectFile path buffer.length s fs).1.woffset + buffer.length },
          (selectFile path buffer.length s fs).2.append f (pieces buffer counts.blocks))
      | none => selectFile path buffer.length s fs := by
  have hloop := fun f woffset (fs : FileSystem ν) =>
    writeLoop_eq f buffer (fun _ => counts.blocks_pos) woffset fs
  simp only [counts.blocks_sum] at hloop
  simp only [shortWrite, shortSelectFile_eq, hloop]

/-- A buffer is appended to the write file exactly when the pieces make it up. -/
theorem appended_iff_pieces (headers : Fin 2 → Composition partHeader.length) {buffer : Bytes}
    (counts : Composition buffer.length) (s : Splitter) (fs : FileSystem ν) :
    Appended buffer (selectFile path buffer.length s fs) (shortWrite path headers counts s fs) ↔
      pieces buffer counts.blocks = buffer := by
  rw [shortWrite_eq]
  obtain ⟨f, hf⟩ := wfile_selectFile path buffer.length s fs
  generalize selectFile path buffer.length s fs = before at hf ⊢
  rw [hf]
  constructor
  · intro h
    have hcontent := h.content f hf
    have hself : (before.2.append f (pieces buffer counts.blocks)).content f =
        before.2.content f ++ pieces buffer counts.blocks := Function.update_self _ _ _
    exact List.append_cancel_left (hself.symm.trans hcontent)
  · intro h
    rw [h]
    refine ⟨rfl, fun f' hf' => ?_, fun i hi => ?_, rfl, rfl⟩
    · obtain rfl := Option.some.inj (hf.symm.trans hf')
      exact Function.update_self _ _ _
    · have hne : i ≠ f := fun he => hi (he ▸ hf)
      exact Function.update_of_ne hne _ _

/-- **Short writes.** A buffer is appended to the write file, once and in order, exactly when each
call to `fwrite` finds at its beginning the bytes that come next. -/
theorem shortWrite_appends_iff (headers : Fin 2 → Composition partHeader.length) {buffer : Bytes}
    (counts : Composition buffer.length) (s : Splitter) (fs : FileSystem ν) :
    Appended buffer (selectFile path buffer.length s fs) (shortWrite path headers counts s fs) ↔
      Repeats buffer counts.blocks :=
  (appended_iff_pieces path headers counts s fs).trans (pieces_eq_iff counts)

/-- Two bytes, one after the other: the first is written twice. -/
theorem not_shortWrite_appends : ¬ ∀ (headers : Fin 2 → Composition partHeader.length)
    (buffer : Bytes) (counts : Composition buffer.length) (s : Splitter) (fs : FileSystem Nat),
    Appended buffer (selectFile id buffer.length s fs) (shortWrite id headers counts s fs) := by
  intro h
  have hpieces := (appended_iff_pieces id (fun _ => Composition.ones _)
    (Composition.ones [1, 2].length) _ _).mp
    (h _ [1, 2] (Composition.ones _) (start id 0 true [] FileSystem.empty).1
      (start id 0 true [] FileSystem.empty).2)
  exact absurd hpieces (by decide)

end Buffer

end CentreonBroker.File
