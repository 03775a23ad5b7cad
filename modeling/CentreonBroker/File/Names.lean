import CentreonBroker.File.Frame
import CentreonBroker.Lib.Decimal
import CentreonBroker.Lib.Fnmatch

/-!
# The names of the parts

A splitter is given a path, and its parts are that path with a number behind. It finds
the parts that exist by listing the directory with the pattern `base_name*`, and what
comes after the base name must be a number. Removing all its files goes by the pattern
alone.

Several splitters share a directory, and names may begin one another. `Spares` is what
an operation of one splitter owes a file that belongs to another.
-/

namespace CentreonBroker.File.Names

open Bytes Decimal Fnmatch FileSystem

abbrev Path := List Char

/-- `base_name`: what follows the last slash. -/
def baseName (path : Path) : Path := (path.reverse.takeWhile (· ≠ '/')).reverse

/-- `base_dir`: what precedes the last slash. -/
def baseDir (path : Path) : Path :=
  if '/' ∈ path then ((path.reverse.dropWhile (· ≠ '/')).drop 1).reverse else ['.']

/-- A directory as it begins the paths of what it contains. -/
def dirPrefix (base_dir : Path) : Path :=
  if base_dir.getLast? = some '/' then base_dir else base_dir ++ ['/']

/-- `get_file_path`. -/
def filePath (base_path : Path) (id : Nat) : Path :=
  if id = 0 then base_path else base_path ++ digits id

/-- The assignment of a `long` to an `int`. -/
def toInt (v : Int) : Int := Int.bmod v (2 ^ 32)

section Shared

variable {δ : Type} [DecidableEq δ]
/- The directory that a path leads to, links and doubled slashes included. -/
variable (dirOf : Path → δ)

/-- A file is an entry of a directory. -/
def entry (path : Path) : δ × Path := (dirOf (baseDir path), baseName path)

/-- The file of each part. -/
def part (base_path : Path) (id : Nat) : δ × Path := entry dirOf (filePath base_path id)

/-- The pattern that `dir_content_with_filter` is given, and completes. -/
def filter (base_path : Path) : Path :=
  dirPrefix (baseDir base_path) ++ (baseName base_path ++ ['*'])

/-- A file that `dir_content_with_filter` keeps. -/
def listed (base_path : Path) (f : δ × Path) : Bool :=
  f.1 = dirOf (baseDir base_path) ∧
    fnmatch (filter base_path) (dirPrefix (baseDir base_path) ++ f.2)

def dirContent (base_path : Path) (fs : FileSystem (δ × Path)) : List (δ × Path) :=
  (fs.dir.map Prod.fst).filter (listed dirOf base_path)

omit [DecidableEq δ] in
/--
The number of a part, in the loop of the constructor: what is read starts as many
characters into the name as the base name has. A name that is shorter counts as zero here.
-/
def partNumber (base_path : Path) (f : δ × Path) : Option Int :=
  let ptr := f.2.drop (baseName base_path).length
  if ptr = [] then some 0
  else if (strtol ptr).2 = [] then some (toInt (strtol ptr).1) else none

def partNumbers (base_path : Path) (fs : FileSystem (δ × Path)) : List Int :=
  (dirContent dirOf base_path fs).filterMap (partNumber base_path)

/-- A file that the constructor counts as a part. -/
def Counted (base_path : Path) (f : δ × Path) : Prop :=
  listed dirOf base_path f = true ∧ partNumber base_path f ≠ none

/-- `close`. -/
def close (s : Splitter) : Splitter := { s with rfile := none, wfile := none }

/-- `remove_all_files`, once the files are closed. -/
def removeAllFiles (base_path : Path) (fs : FileSystem (δ × Path)) : FileSystem (δ × Path) :=
  (dirContent dirOf base_path fs).foldl FileSystem.remove fs

/-! ## One splitter among others -/

inductive Op where
  /-- The constructor, over any splitter there was. -/
  | construct (max_file_size : Int) (auto_delete : Bool)
  | read (max_size : Nat)
  | write (buffer : Bytes)
  | close
  | removeAllFiles

/-- A splitter, once it is constructed, and all the files there are. -/
structure State (δ : Type) where
  splitter : Option Splitter
  fs : FileSystem (δ × Path)

/-- An operation of the splitter of a path, and what it returns. -/
def step (base_path : Path) : Op → State δ → Option ReadStatus × State δ
  | .construct max_file_size auto_delete, ⟨_, fs⟩ =>
    let (s, fs) := start (part dirOf base_path) max_file_size auto_delete
      (partNumbers dirOf base_path fs) fs
    (none, ⟨some s, fs⟩)
  | .read max_size, ⟨some s, fs⟩ =>
    let (status, s, fs) := File.read (part dirOf base_path) max_size s fs
    (some status, ⟨some s, fs⟩)
  | .write buffer, ⟨some s, fs⟩ =>
    let (s, fs) := File.write (part dirOf base_path) s fs buffer
    (none, ⟨some s, fs⟩)
  | .close, ⟨some s, fs⟩ => (none, ⟨some (Names.close s), fs⟩)
  | .removeAllFiles, ⟨some s, fs⟩ =>
    (none, ⟨some (Names.close s), Names.removeAllFiles dirOf base_path fs⟩)
  | _, ⟨none, fs⟩ => (none, ⟨none, fs⟩)

def State.remove (st : State δ) (f : δ × Path) : State δ := { st with fs := st.fs.remove f }

/--
The operation leaves a file alone. It does not count it, does the same without it, and
the file keeps its name and its bytes.
-/
structure Spares (base_path : Path) (f : δ × Path) (op : Op) (st : State δ) : Prop where
  uncounted : ∀ max_file_size auto_delete, op = .construct max_file_size auto_delete →
    ¬ Counted dirOf base_path f
  unread : step dirOf base_path op (st.remove f) =
    ((step dirOf base_path op st).1, (step dirOf base_path op st).2.remove f)
  named : (step dirOf base_path op st).2.fs.find f = st.fs.find f
  content : ∀ i, st.fs.find f = some i →
    (step dirOf base_path op st).2.fs.content i = st.fs.content i

/-- `remove_all_files` is not called on every splitter. -/
def Allowed (removes : Bool) (op : Op) : Prop := op = .removeAllFiles → removes = true

/-- The states of a splitter and of the files, whatever the others do to them. -/
inductive Reachable (base_path : Path) (removes : Bool) : State δ → Prop where
  | init (fs : FileSystem (δ × Path)) (h : fs.Lawful) : Reachable base_path removes ⟨none, fs⟩
  | step {st : State δ} (h : Reachable base_path removes st) (op : Op)
    (hop : Allowed removes op) : Reachable base_path removes (step dirOf base_path op st).2
  /-- No other name is given to a file that is open. -/
  | others {s : Option Splitter} {fs fs' : FileSystem (δ × Path)}
    (h : Reachable base_path removes ⟨s, fs⟩) (hl : fs'.Lawful)
    (hopen : ∀ t, s = some t → ∀ f i, (t.rfile = some i ∨ t.wfile = some i) →
      fs'.find f = some i → fs.find f = some i) :
    Reachable base_path removes ⟨s, fs'⟩

/-- No operation ever touches the file. -/
def Isolated (base_path : Path) (removes : Bool) (f : δ × Path) : Prop :=
  ∀ st, Reachable dirOf base_path removes st → ∀ op, Allowed removes op →
    Spares dirOf base_path f op st

/-- The file is one that some operation takes. -/
def Taken (base_path : Path) (removes : Bool) (f : δ × Path) : Prop :=
  (∃ id, part dirOf base_path id = f) ∨ Counted dirOf base_path f ∨
    (removes = true ∧ listed dirOf base_path f = true)

/-! ## What is not taken is left alone -/

variable {dirOf} {base_path : Path} {removes : Bool} {f : δ × Path}

theorem dirContent_remove (fs : FileSystem (δ × Path)) :
    dirContent dirOf base_path (fs.remove f) =
      (dirContent dirOf base_path fs).filter (· ≠ f) := by
  have hmap : (fs.remove f).dir.map Prod.fst = (fs.dir.map Prod.fst).filter (· ≠ f) := by
    rw [List.filter_map]
    rfl
  unfold dirContent
  rw [hmap, List.filter_filter, List.filter_filter]
  exact List.filter_congr fun g _ => Bool.and_comm _ _

theorem partNumbers_remove (hc : ¬ Counted dirOf base_path f) (fs : FileSystem (δ × Path)) :
    partNumbers dirOf base_path (fs.remove f) = partNumbers dirOf base_path fs := by
  have hnone : ∀ g ∈ dirContent dirOf base_path fs, g = f → partNumber base_path g = none := by
    rintro g hg rfl
    by_contra hn
    exact hc ⟨(List.mem_filter.mp hg).2, hn⟩
  unfold partNumbers
  rw [dirContent_remove, List.filterMap_filter]
  refine List.filterMap_congr fun g hg => ?_
  by_cases he : g = f
  · rw [hnone g hg he]
    simp [he]
  · simp [he]

theorem dirContent_remove_of_not_listed (hl : listed dirOf base_path f ≠ true)
    (fs : FileSystem (δ × Path)) :
    dirContent dirOf base_path (fs.remove f) = dirContent dirOf base_path fs := by
  rw [dirContent_remove, List.filter_eq_self]
  intro g hg
  have hne : g ≠ f := fun he => hl (he ▸ (List.mem_filter.mp hg).2)
  simpa using hne

variable {fs : FileSystem (δ × Path)} {s : Splitter}

theorem foldl_remove_untouched {l : List (δ × Path)} (hl : f ∉ l)
    (hlaw : fs.Lawful) (hf : Free f s fs) :
    Untouched f fs s (l.foldl FileSystem.remove fs) := by
  induction l generalizing fs with
  | nil => exact Untouched.refl hlaw hf
  | cons n l ih =>
    obtain ⟨hn, hl⟩ := not_or.mp (mt List.mem_cons.mpr hl)
    have h1 : Untouched f fs s (fs.remove n) := remove_untouched hlaw hf (Ne.symm hn)
    exact h1.trans (ih hl h1.lawful h1.free)

theorem free_close (fs : FileSystem (δ × Path)) : Free f (close s) fs := by
  intro i _
  exact ⟨Option.some_ne_none i ∘ Eq.symm, Option.some_ne_none i ∘ Eq.symm⟩

theorem start_remove (hp : ∀ id, part dirOf base_path id ≠ f) (max_file_size : Int)
    (auto_delete : Bool) (vals : List Int) (fs : FileSystem (δ × Path)) :
    start (part dirOf base_path) max_file_size auto_delete vals (fs.remove f) =
      ((start (part dirOf base_path) max_file_size auto_delete vals fs).1,
        (start (part dirOf base_path) max_file_size auto_delete vals fs).2.remove f) :=
  openWriteFile_remove hp _ _

theorem step_construct (s : Option Splitter) (fs : FileSystem (δ × Path)) (max_file_size : Int)
    (auto_delete : Bool) :
    step dirOf base_path (.construct max_file_size auto_delete) ⟨s, fs⟩ =
      (none, ⟨some (start (part dirOf base_path) max_file_size auto_delete
          (partNumbers dirOf base_path fs) fs).1,
        (start (part dirOf base_path) max_file_size auto_delete
          (partNumbers dirOf base_path fs) fs).2⟩) := rfl

theorem step_write (s : Splitter) (fs : FileSystem (δ × Path)) (buffer : Bytes) :
    step dirOf base_path (.write buffer) ⟨some s, fs⟩ =
      (none, ⟨some (File.write (part dirOf base_path) s fs buffer).1,
        (File.write (part dirOf base_path) s fs buffer).2⟩) := rfl

theorem step_read (s : Splitter) (fs : FileSystem (δ × Path)) (max_size : Nat) :
    step dirOf base_path (.read max_size) ⟨some s, fs⟩ =
      (some (File.read (part dirOf base_path) max_size s fs).1,
        ⟨some (File.read (part dirOf base_path) max_size s fs).2.1,
          (File.read (part dirOf base_path) max_size s fs).2.2⟩) := rfl

theorem step_removeAllFiles (s : Splitter) (fs : FileSystem (δ × Path)) :
    step dirOf base_path .removeAllFiles ⟨some s, fs⟩ =
      (none, ⟨some (close s), removeAllFiles dirOf base_path fs⟩) := rfl

/-- What every state owes a file that is not taken. -/
def Keeps (f : δ × Path) (st : State δ) : Prop :=
  st.fs.Lawful ∧ ∀ s, st.splitter = some s → Free f s st.fs

theorem start_untouched (hp : ∀ id, part dirOf base_path id ≠ f) (max_file_size : Int)
    (auto_delete : Bool) (vals : List Int) (hl : fs.Lawful) :
    Untouched f fs (start (part dirOf base_path) max_file_size auto_delete vals fs).1
      (start (part dirOf base_path) max_file_size auto_delete vals fs).2 := by
  unfold start
  refine openWriteFile_untouched hp hl fun i _ => ⟨?_, ?_⟩
  · exact Option.some_ne_none i ∘ Eq.symm
  · exact Option.some_ne_none i ∘ Eq.symm

/-- **One operation** leaves alone a file that is not taken. -/
theorem step_spares (hn : ¬ Taken dirOf base_path removes f) {st : State δ} (hst : Keeps f st)
    {op : Op} (hop : Allowed removes op) :
    Spares dirOf base_path f op st ∧ Keeps f (step dirOf base_path op st).2 := by
  obtain ⟨s, fs⟩ := st
  obtain ⟨hl, hfree⟩ := hst
  have hp : ∀ id, part dirOf base_path id ≠ f := fun id he => hn (.inl ⟨id, he⟩)
  have hc : ¬ Counted dirOf base_path f := fun h => hn (.inr (.inl h))
  -- an operation that leaves a splitter and files where the file is untouched
  have key : ∀ {s' fs'}, Untouched f fs s' fs' →
      (step dirOf base_path op ⟨s, fs⟩).2 = ⟨some s', fs'⟩ →
      step dirOf base_path op ⟨s, fs.remove f⟩ =
        ((step dirOf base_path op ⟨s, fs⟩).1, ⟨some s', fs'.remove f⟩) →
      Spares dirOf base_path f op ⟨s, fs⟩ ∧ Keeps f (step dirOf base_path op ⟨s, fs⟩).2 := by
    intro s' fs' h he hrem
    refine ⟨⟨fun _ _ _ => hc, ?_, ?_, ?_⟩, ?_⟩
    · rw [he]; exact hrem
    · rw [he]; exact h.find
    · rw [he]; exact h.content
    · rw [he]; exact ⟨h.lawful, fun t ht => Option.some.inj ht ▸ h.free⟩
  cases op with
  | construct max_file_size auto_delete =>
    refine key (start_untouched hp max_file_size auto_delete _ hl) rfl ?_
    rw [step_construct, step_construct, partNumbers_remove hc, start_remove hp]
  | read max_size =>
    cases s with
    | none => exact ⟨⟨fun _ _ _ => hc, rfl, rfl, fun _ _ => rfl⟩, hl, hfree⟩
    | some s =>
      refine key (read_untouched hp max_size hl (hfree s rfl)) rfl ?_
      rw [step_read, step_read, read_remove hp]
  | write buffer =>
    cases s with
    | none => exact ⟨⟨fun _ _ _ => hc, rfl, rfl, fun _ _ => rfl⟩, hl, hfree⟩
    | some s =>
      refine key (write_untouched hp hl (hfree s rfl) buffer) rfl ?_
      rw [step_write, step_write, write_remove hp]
  | close =>
    cases s with
    | none => exact ⟨⟨fun _ _ _ => hc, rfl, rfl, fun _ _ => rfl⟩, hl, hfree⟩
    | some s => exact key (Untouched.refl hl (free_close fs)) rfl rfl
  | removeAllFiles =>
    cases s with
    | none => exact ⟨⟨fun _ _ _ => hc, rfl, rfl, fun _ _ => rfl⟩, hl, hfree⟩
    | some s =>
      have hlist : listed dirOf base_path f ≠ true := fun h => hn (.inr (.inr ⟨hop rfl, h⟩))
      have hmem : f ∉ dirContent dirOf base_path fs := fun h => hlist (List.mem_filter.mp h).2
      refine key (foldl_remove_untouched hmem hl (free_close fs)) rfl ?_
      rw [step_removeAllFiles, step_removeAllFiles, removeAllFiles,
        dirContent_remove_of_not_listed hlist, foldl_remove_remove]

/-- **Every state that is reached** keeps a file that is not taken. -/
theorem reachable_keeps (hn : ¬ Taken dirOf base_path removes f) {st : State δ}
    (h : Reachable dirOf base_path removes st) : Keeps f st := by
  induction h with
  | init fs hl => exact ⟨hl, fun s hs => by cases hs⟩
  | step _ op hop ih => exact (step_spares hn ih hop).2
  | others _ hl hopen ih =>
    refine ⟨hl, fun t ht i hi => ?_⟩
    -- an open file had its name before
    exact ⟨fun hr => (ih.2 t ht i (hopen t ht f i (.inl hr) hi)).1 hr,
      fun hw => (ih.2 t ht i (hopen t ht f i (.inr hw) hi)).2 hw⟩

/-! ## What is taken is disturbed -/

theorem headed_content (s : Splitter) (i : Nat) {ν : Type} (fs : FileSystem ν) :
    (headed s i fs).2.content i ≠ [] := by
  intro h
  unfold headed at h
  split at h
  · rw [content_append_self] at h
    exact absurd (List.append_eq_nil_iff.mp h).2 (by decide)
  · rename_i hlen
    dsimp only at h
    rw [h] at hlen
    exact hlen (by decide)

/-- The splitter is in its part `id`, that it opened itself. -/
structure AtPart (id : Nat) (s : Splitter) : Prop where
  rfile : s.rfile = none
  rid : s.rid = 0
  wid : s.wid = id
  wfile : s.wfile.isSome = true
  max_file_size : s.max_file_size = 10000

omit [DecidableEq δ] in
theorem headed_atPart {id i : Nat}
    (h1 : s.rfile = none) (h2 : s.rid = 0) (h3 : s.wid = id) (h4 : s.max_file_size = 10000) :
    AtPart id (headed s i fs).1 := by
  unfold headed
  split
  · exact ⟨h1, h2, h3, rfl, h4⟩
  · exact ⟨h1, h2, h3, rfl, h4⟩

omit [DecidableEq δ] in
theorem fwrite_atPart {id : Nat} {buffer : Bytes}
    (h : AtPart id s) : AtPart id (fwrite s fs buffer).1 := by
  unfold fwrite
  split
  · exact ⟨h.rfile, h.rid, h.wid, h.wfile, h.max_file_size⟩
  · exact h

/-- What a part cannot hold goes to a new one. -/
theorem write_large {id : Nat} (h : AtPart id s) (fs : FileSystem (δ × Path))
    {buffer : Bytes} (hlarge : 10000 < buffer.length) :
    AtPart (id + 1) (File.write (part dirOf base_path) s fs buffer).1 ∧
    ∀ i, fs.find (part dirOf base_path (id + 1)) = some i →
      (File.write (part dirOf base_path) s fs buffer).2.content i ≠ [] := by
  have hw : s.wfile.isNone ≠ true := by
    obtain ⟨i, hi⟩ := Option.isSome_iff_exists.mp h.wfile
    rw [hi]
    exact Bool.false_ne_true
  have hlt : s.max_file_size < s.woffset + buffer.length := by
    rw [h.max_file_size]
    omega
  have hnone : (if s.wid + 1 = s.rid then s.rfile else none) = none := by
    rw [h.rfile]
    exact ite_self none
  unfold File.write
  rw [if_neg hw]
  dsimp only
  rw [if_pos hlt, openWriteFile_own (s := { s with wid := s.wid + 1 }) hnone]
  dsimp only
  have hat : AtPart (id + 1) (headed { s with wid := s.wid + 1 }
      (fs.openAppend (part dirOf base_path (s.wid + 1))).1
      (fs.openAppend (part dirOf base_path (s.wid + 1))).2).1 :=
    headed_atPart h.rfile h.rid (congrArg (· + 1) h.wid) h.max_file_size
  refine ⟨fwrite_atPart hat, fun i hi => ?_⟩
  rw [h.wid, openAppend_of_find hi]
  intro hnil
  unfold fwrite at hnil
  split at hnil
  · rename_i j hj
    by_cases hij : i = j
    · subst hij
      rw [content_append_self] at hnil
      have hb := (List.append_eq_nil_iff.mp hnil).2
      rw [hb] at hlarge
      exact Nat.not_lt_zero _ hlarge
    · rw [content_append_of_ne _ hij] at hnil
      exact headed_content _ i fs hnil
  · exact headed_content _ i fs hnil

/-- A directory where no file counts as a part gets the part 0. -/
theorem start_single (hc : ¬ Counted dirOf base_path f) :
    AtPart 0 (start (part dirOf base_path) 10000 true
      (partNumbers dirOf base_path (single f)) (single f)).1 ∧
    (part dirOf base_path 0 = f → (start (part dirOf base_path) 10000 true
      (partNumbers dirOf base_path (single f)) (single f)).2.content 0 ≠ []) := by
  have hvals : partNumbers dirOf base_path (single f) = [] := by
    unfold partNumbers dirContent
    refine List.filterMap_eq_nil_iff.mpr fun g hg => ?_
    obtain ⟨hg, hl⟩ := List.mem_filter.mp hg
    have hgf : g = f := by simpa [single] using hg
    by_contra hn
    exact hc ⟨hgf ▸ hl, hgf ▸ hn⟩
  rw [hvals]
  unfold start
  rw [openWriteFile_own (ite_self none)]
  refine ⟨headed_atPart rfl rfl rfl (by decide), fun hf => ?_⟩
  have hfind : (single f).find (part dirOf base_path 0) = some 0 := by
    rw [find_single, if_pos hf]
  show (headed _ ((single f).openAppend (part dirOf base_path 0)).1
    ((single f).openAppend (part dirOf base_path 0)).2).2.content 0 ≠ []
  rw [openAppend_of_find hfind]
  exact headed_content _ 0 _

/-- A splitter that is isolated from a file rolls over it, one part after the other. -/
theorem isolated_run (h : Isolated dirOf base_path removes f) (hc : ¬ Counted dirOf base_path f) :
    ∀ id, ∃ s fs, Reachable dirOf base_path removes ⟨some s, fs⟩ ∧ AtPart id s ∧
      fs.find f = some 0 ∧ fs.content 0 = [] ∧ ∀ j ≤ id, part dirOf base_path j ≠ f := by
  obtain ⟨buffer, hlarge⟩ : ∃ b : Bytes, 10000 < b.length :=
    ⟨List.replicate 10001 0, by rw [List.length_replicate]; omega⟩
  intro id
  induction id with
  | zero =>
    have hinit : Reachable dirOf base_path removes ⟨none, single f⟩ :=
      .init _ (FileSystem.Lawful.single f)
    have hop : Allowed removes (.construct 10000 true) := by intro he; cases he
    have hsp := h _ hinit _ hop
    obtain ⟨hat, hpart⟩ := start_single hc
    have hcon := hsp.content 0 (by rw [find_single, if_pos rfl])
    refine ⟨_, _, hinit.step _ hop, hat, ?_, hcon, fun j hj hf => ?_⟩
    · exact hsp.named.trans (by rw [find_single, if_pos rfl])
    · rw [Nat.le_zero.mp hj] at hf
      exact hpart hf hcon
  | succ id ih =>
    obtain ⟨s, fs, hr, hat, hfind, hcon, hparts⟩ := ih
    have hop : Allowed removes (.write buffer) := by intro he; cases he
    have hsp := h _ hr _ hop
    obtain ⟨hat', hpart⟩ := @write_large _ _ dirOf base_path _ _ hat fs _ hlarge
    have hcon' := (hsp.content 0 hfind).trans hcon
    refine ⟨_, _, hr.step _ hop, hat', hsp.named.trans hfind, hcon', fun j hj hf => ?_⟩
    rcases Nat.lt_or_ge id j with hlt | hle
    · obtain rfl : j = id + 1 := Nat.le_antisymm hj hlt
      exact hpart 0 (by rw [hf]; exact hfind) hcon'
    · exact hparts j hle hf

/-- **What is taken is disturbed**, in some run. -/
theorem not_taken_of_isolated (h : Isolated dirOf base_path removes f) :
    ¬ Taken dirOf base_path removes f := by
  have hc : ¬ Counted dirOf base_path f := by
    have hop : Allowed removes (.construct 10000 true) := by intro he; cases he
    exact (h _ (.init (single f) (FileSystem.Lawful.single f)) _ hop).uncounted _ _ rfl
  rintro (⟨id, hid⟩ | hcount | ⟨hrem, hlist⟩)
  · obtain ⟨_, _, _, _, _, _, hparts⟩ := isolated_run h hc id
    exact hparts id (Nat.le_refl id) hid
  · exact hc hcount
  · obtain ⟨s, fs, hr, _, hfind, _, _⟩ := isolated_run h hc 0
    have hsp := h _ hr .removeAllFiles fun _ => hrem
    have hnone : (removeAllFiles dirOf base_path fs).find f = none :=
      find_foldl_remove (List.mem_filter.mpr ⟨mem_names_of_find hfind, hlist⟩) fs
    have hsome := hsp.named.trans hfind
    rw [step_removeAllFiles] at hsome
    rw [hnone] at hsome
    cases hsome

/-- **A file is isolated from a splitter when no operation takes it**, and only then. -/
theorem isolated_iff_not_taken :
    Isolated dirOf base_path removes f ↔ ¬ Taken dirOf base_path removes f :=
  ⟨not_taken_of_isolated, fun hn _ hr _ hop => (step_spares hn (reachable_keeps hn hr) hop).1⟩

end Shared

end CentreonBroker.File.Names
