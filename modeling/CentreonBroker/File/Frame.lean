import CentreonBroker.File.Splitter

/-!
# What a splitter leaves alone

A splitter opens, writes and removes its own parts. A file that is none of them and that it
does not hold open is left as it is, and is not looked at either: it could as well be
missing, the splitter would do the same.
-/

namespace CentreonBroker.File

open Bytes

variable {ν : Type} [DecidableEq ν] {path : Nat → ν} {f : ν}

/-- The file is not one that the splitter has open. -/
def Free (f : ν) (s : Splitter) (fs : FileSystem ν) : Prop :=
  ∀ i, fs.find f = some i → s.rfile ≠ some i ∧ s.wfile ≠ some i

/-- From the first state to the second one, the file is neither touched nor opened. -/
structure Untouched (f : ν) (fs : FileSystem ν) (s' : Splitter) (fs' : FileSystem ν) : Prop where
  lawful : fs'.Lawful
  free : Free f s' fs'
  find : fs'.find f = fs.find f
  content : ∀ i, fs.find f = some i → fs'.content i = fs.content i

variable {fs : FileSystem ν} {s : Splitter}

theorem Untouched.refl (hl : fs.Lawful) (hf : Free f s fs) :
    Untouched f fs s fs := ⟨hl, hf, rfl, fun _ _ => rfl⟩

theorem Untouched.trans {s' s'' : Splitter} {fs' fs'' : FileSystem ν} (h : Untouched f fs s' fs')
    (h' : Untouched f fs' s'' fs'') : Untouched f fs s'' fs'' where
  lawful := h'.lawful
  free := h'.free
  find := h'.find.trans h.find
  content := fun i hi => (h'.content i (h.find.trans hi)).trans (h.content i hi)

/-! ## Nothing happens to the file -/

theorem openReadFile_untouched (hp : ∀ j, path j ≠ f)
    (hl : fs.Lawful) (hf : Free f s fs) : Untouched f fs (openReadFile path s fs) fs := by
  refine Untouched.refl hl fun i hi => ?_
  unfold openReadFile
  split
  · exact ⟨(hf i hi).2, (hf i hi).2⟩
  · split
    · rename_i j hj
      refine ⟨fun he => hp s.rid (hl.find_inj hj ?_), (hf i hi).2⟩
      rw [hi, Option.some.inj he]
    · exact ⟨fun he => (Option.some_ne_none i he.symm).elim, (hf i hi).2⟩

/-- What `_open_write_file` opens is not the file, and the file stays as it is. -/
theorem openAppend_untouched (hp : ∀ j, path j ≠ f)
    (hl : fs.Lawful) (hf : Free f s fs) (j : Nat) :
    Untouched f fs s (fs.openAppend (path j)).2 ∧ fs.find f ≠ some (fs.openAppend (path j)).1 := by
  have hfind := fs.find_openAppend_of_ne (hp j).symm
  have hne : fs.find f ≠ some (fs.openAppend (path j)).1 := by
    intro hi
    exact hp j (hl.openAppend (path j) |>.find_inj (fs.find_openAppend_self (path j))
      (hfind.trans hi))
  refine ⟨⟨hl.openAppend _, fun i hi => hf i (hfind.symm.trans hi), hfind, fun i hi => ?_⟩, hne⟩
  exact fs.content_openAppend_of_ne (Nat.ne_of_lt (hl.find_lt hi))

theorem append_untouched (hl : fs.Lawful) (hf : Free f s fs)
    {i : Nat} (hi : fs.find f ≠ some i) (b : Bytes) : Untouched f fs s (fs.append i b) where
  lawful := hl.append i b
  free := hf
  find := rfl
  content := fun _ hk => fs.content_append_of_ne (fun he => hi (hk.trans (congrArg some he))) b

/-- The end of `_open_write_file`, once the part is open. -/
def headed (s : Splitter) (i : Nat) (fs : FileSystem ν) : Splitter × FileSystem ν :=
  if (fs.content i).length < partHeaderSize then
    ({ s with wfile := some i, woffset := partHeaderSize }, fs.append i partHeader)
  else ({ s with wfile := some i, woffset := (fs.content i).length }, fs)

theorem openWriteFile_shared {i : Nat}
    (h : (if s.wid = s.rid then s.rfile else none) = some i) :
    openWriteFile path s fs = headed s i fs := by
  unfold openWriteFile
  rw [h]
  rfl

theorem openWriteFile_own
    (h : (if s.wid = s.rid then s.rfile else none) = none) :
    openWriteFile path s fs =
      headed s (fs.openAppend (path s.wid)).1 (fs.openAppend (path s.wid)).2 := by
  unfold openWriteFile
  rw [h]
  rfl

theorem headed_untouched (hl : fs.Lawful) (hf : Free f s fs)
    {i : Nat} (hi : fs.find f ≠ some i) :
    Untouched f fs (headed s i fs).1 (headed s i fs).2 := by
  have hfree : ∀ k, fs.find f = some k → s.rfile ≠ some k ∧ some i ≠ some k :=
    fun k hk => ⟨(hf k hk).1, fun he => hi (hk.trans he.symm)⟩
  unfold headed
  split
  · exact append_untouched (s := { s with wfile := some i, woffset := partHeaderSize }) hl hfree hi _
  · exact Untouched.refl hl hfree

theorem openWriteFile_untouched (hp : ∀ j, path j ≠ f)
    (hl : fs.Lawful) (hf : Free f s fs) :
    Untouched f fs (openWriteFile path s fs).1 (openWriteFile path s fs).2 := by
  cases h : (if s.wid = s.rid then s.rfile else none) with
  | some i =>
    rw [openWriteFile_shared h]
    refine headed_untouched hl hf fun he => ?_
    split at h
    · exact (hf i he).1 h
    · cases h
  | none =>
    rw [openWriteFile_own h]
    obtain ⟨hk, hne⟩ := openAppend_untouched hp hl hf s.wid
    exact hk.trans (headed_untouched hk.lawful hk.free fun he => hne (hk.find.symm.trans he))

theorem fwrite_untouched (hl : fs.Lawful) (hf : Free f s fs)
    (buffer : Bytes) : Untouched f fs (fwrite s fs buffer).1 (fwrite s fs buffer).2 := by
  unfold fwrite
  split
  · rename_i i hi
    have hne : fs.find f ≠ some i := fun he => (hf i he).2 hi
    exact append_untouched hl (s := { s with woffset := s.woffset + buffer.length }) hf hne buffer
  · exact Untouched.refl hl hf

theorem write_untouched (hp : ∀ j, path j ≠ f)
    (hl : fs.Lawful) (hf : Free f s fs) (buffer : Bytes) :
    Untouched f fs (write path s fs buffer).1 (write path s fs buffer).2 := by
  have h1 : Untouched f fs (if s.wfile.isNone then openWriteFile path s fs else (s, fs)).1
      (if s.wfile.isNone then openWriteFile path s fs else (s, fs)).2 := by
    split
    · exact openWriteFile_untouched hp hl hf
    · exact Untouched.refl hl hf
  unfold write
  revert h1
  generalize (if s.wfile.isNone then openWriteFile path s fs else (s, fs)) = r
  intro h1
  dsimp only
  split
  · have h2 := openWriteFile_untouched hp (s := { r.1 with wid := r.1.wid + 1 }) h1.lawful h1.free
    exact (h1.trans h2).trans (fwrite_untouched h2.lawful h2.free buffer)
  · exact h1.trans (fwrite_untouched h1.lawful h1.free buffer)

theorem remove_untouched (hl : fs.Lawful) (hf : Free f s fs)
    {n : ν} (hn : n ≠ f) : Untouched f fs s (fs.remove n) where
  lawful := hl.remove n
  free := fun i hi => hf i ((fs.find_remove_of_ne hn.symm).symm.trans hi)
  find := fs.find_remove_of_ne hn.symm
  content := fun _ _ => rfl

theorem readFile_untouched (hp : ∀ j, path j ≠ f)
    (hl : fs.Lawful) (hf : Free f s fs) : Untouched f fs (readFile path s fs) fs := by
  unfold readFile
  split
  · exact openReadFile_untouched hp hl hf
  · exact Untouched.refl hl hf

/-- The next part, after the end of one. -/
def nextPart (path : Nat → ν) (s : Splitter) (fs : FileSystem ν) : Splitter :=
  openReadFile path { s with rid := s.rid + 1 } fs

/-- The file system once the end of a part is reached. -/
def afterPart (path : Nat → ν) (s : Splitter) (fs : FileSystem ν) : FileSystem ν :=
  if s.auto_delete then fs.remove (path s.rid) else fs

/-- `read`, from the file that it starts with. -/
theorem read_eq (path : Nat → ν) (max_size : Nat) (s : Splitter) (fs : FileSystem ν) :
    read path max_size s fs =
      match (readFile path s fs).rfile with
      | none => (.missing, readFile path s fs, fs)
      | some f =>
        let b := ((fs.content f).drop (readFile path s fs).roffset).take max_size
        if b ≠ [] then
          (.bytes b, { readFile path s fs with
            roffset := (readFile path s fs).roffset + b.length }, fs)
        else if max_size = 0 then (.idle, readFile path s fs, fs)
        else if (readFile path s fs).rid < (readFile path s fs).wid then
          read path max_size (nextPart path (readFile path s fs) (afterPart path (readFile path s fs) fs))
            (afterPart path (readFile path s fs) fs)
        else (.shutdown, readFile path s fs, afterPart path (readFile path s fs) fs) := by
  rw [read]
  dsimp only
  split
  · rename_i hn
    simp only [hn]
  · rename_i f hf
    simp only [hf]
    split
    · rfl
    · split
      · rfl
      · split <;> rfl

theorem nextPart_measure (fs' : FileSystem ν)
    (h : (readFile path s fs).rid < (readFile path s fs).wid) :
    (nextPart path (readFile path s fs) fs').wid - (nextPart path (readFile path s fs) fs').rid <
      s.wid - s.rid := by
  obtain ⟨h1, h2⟩ := rid_readFile path s fs
  unfold nextPart
  rw [(rid_openReadFile path _ _).1, (rid_openReadFile path _ _).2]
  dsimp only
  omega

theorem afterPart_untouched (hp : ∀ j, path j ≠ f)
    (hl : fs.Lawful) (hf : Free f s fs) : Untouched f fs s (afterPart path s fs) := by
  unfold afterPart
  split
  · exact remove_untouched hl hf (hp _)
  · exact Untouched.refl hl hf

/-- By induction on the parts that are left to read. -/
theorem read_untouched (hp : ∀ j, path j ≠ f) (max_size : Nat)
    (hl : fs.Lawful) (hf : Free f s fs) :
    Untouched f fs (read path max_size s fs).2.1 (read path max_size s fs).2.2 := by
  induction hn : s.wid - s.rid using Nat.strongRecOn generalizing s fs with
  | ind n ih =>
    have h1 := readFile_untouched hp hl hf
    rw [read_eq]
    split
    · exact h1
    · dsimp only
      split
      · exact ⟨h1.lawful, h1.free, h1.find, h1.content⟩
      · split
        · exact h1
        · have h2 := afterPart_untouched hp h1.lawful h1.free
          split
          · rename_i hlt
            have h3 : Untouched f _ (nextPart path (readFile path s fs) _) _ :=
              openReadFile_untouched hp (s := { readFile path s fs with rid := _ }) h2.lawful h2.free
            have hm := nextPart_measure (afterPart path (readFile path s fs) fs) hlt
            exact ((h1.trans h2).trans h3).trans
              (ih _ (hn ▸ hm) h3.lawful h3.free rfl)
          · exact h1.trans h2

/-! ## The file is not looked at -/

theorem openReadFile_remove (hp : ∀ j, path j ≠ f) (s : Splitter) (fs : FileSystem ν) :
    openReadFile path s (fs.remove f) = openReadFile path s fs := by
  unfold openReadFile
  rw [fs.find_remove_of_ne (hp s.rid)]

theorem headed_remove (s : Splitter) (i : Nat) (fs : FileSystem ν) :
    headed s i (fs.remove f) = ((headed s i fs).1, (headed s i fs).2.remove f) := by
  unfold headed
  rw [FileSystem.content_remove]
  split <;> rfl

theorem openWriteFile_remove (hp : ∀ j, path j ≠ f) (s : Splitter) (fs : FileSystem ν) :
    openWriteFile path s (fs.remove f) =
      ((openWriteFile path s fs).1, (openWriteFile path s fs).2.remove f) := by
  cases h : (if s.wid = s.rid then s.rfile else none) with
  | some i => rw [openWriteFile_shared h, openWriteFile_shared h, headed_remove]
  | none =>
    rw [openWriteFile_own h, openWriteFile_own h, fs.openAppend_remove (hp s.wid), headed_remove]

theorem fwrite_remove (s : Splitter) (fs : FileSystem ν) (buffer : Bytes) :
    fwrite s (fs.remove f) buffer = ((fwrite s fs buffer).1, (fwrite s fs buffer).2.remove f) := by
  unfold fwrite
  split <;> rfl

theorem write_remove (hp : ∀ j, path j ≠ f) (s : Splitter) (fs : FileSystem ν) (buffer : Bytes) :
    write path s (fs.remove f) buffer =
      ((write path s fs buffer).1, (write path s fs buffer).2.remove f) := by
  have h1 : (if s.wfile.isNone then openWriteFile path s (fs.remove f) else (s, fs.remove f)) =
      ((if s.wfile.isNone then openWriteFile path s fs else (s, fs)).1,
        (if s.wfile.isNone then openWriteFile path s fs else (s, fs)).2.remove f) := by
    split
    · exact openWriteFile_remove hp s fs
    · rfl
  unfold write
  generalize (if s.wfile.isNone then openWriteFile path s fs else (s, fs)) = r at h1 ⊢
  rw [h1]
  dsimp only
  by_cases hlt : r.1.max_file_size < r.1.woffset + buffer.length
  · rw [if_pos hlt, if_pos hlt, openWriteFile_remove hp, fwrite_remove]
  · rw [if_neg hlt, if_neg hlt, fwrite_remove]

theorem readFile_remove (hp : ∀ j, path j ≠ f) (s : Splitter) (fs : FileSystem ν) :
    readFile path s (fs.remove f) = readFile path s fs := by
  unfold readFile
  rw [openReadFile_remove hp]

theorem afterPart_remove (s : Splitter) (fs : FileSystem ν) :
    afterPart path s (fs.remove f) = (afterPart path s fs).remove f := by
  unfold afterPart
  split
  · exact fs.remove_comm f _
  · rfl

theorem read_remove (hp : ∀ j, path j ≠ f) (max_size : Nat) (s : Splitter) (fs : FileSystem ν) :
    read path max_size s (fs.remove f) =
      ((read path max_size s fs).1, (read path max_size s fs).2.1,
        (read path max_size s fs).2.2.remove f) := by
  induction hn : s.wid - s.rid using Nat.strongRecOn generalizing s fs with
  | ind n ih =>
    rw [read_eq path max_size s (fs.remove f), read_eq path max_size s fs,
      readFile_remove hp, FileSystem.content_remove, afterPart_remove]
    split
    · rfl
    · dsimp only
      split
      · rfl
      · split
        · rfl
        · split
          · rename_i hlt
            have hm := nextPart_measure (afterPart path (readFile path s fs) fs) hlt
            have hnext : ∀ fs', nextPart path (readFile path s fs) (fs'.remove f) =
                nextPart path (readFile path s fs) fs' := fun fs' => openReadFile_remove hp _ fs'
            rw [hnext, ih _ (hn ▸ hm) _ _ rfl]
          · rfl

end CentreonBroker.File
