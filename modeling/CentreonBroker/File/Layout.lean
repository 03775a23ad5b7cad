import CentreonBroker.File.Splitter

/-!
# Where the bytes of a splitter are

At any time the bytes still to be read are at the end of the part being read,
then in the parts after it, up to the one being written. `Layout` says which
inodes these are, and `unread` reads them. Four facts carry everything else:

* opening a new part to write adds nothing (`Layout.rollover`);
* writing adds the buffer at the end (`Layout.append`);
* opening the part to read moves nothing (`Layout.openRead`);
* going past a part that was read to its end moves nothing, whether its name is
  removed or not (`Layout.nextPart`).
-/

namespace CentreonBroker.File

open Bytes FileSystem

variable {ν : Type} [DecidableEq ν] {path : Nat → ν}

/-- The parts numbered from `k` on lead to the inodes of a list. -/
def Named (path : Nat → ν) (fs : FileSystem ν) : Nat → List Nat → Prop
  | _, [] => True
  | k, i :: is => fs.find (path k) = some i ∧ Named path fs (k + 1) is

/-- The part being read is in `h`, those after it in `later`. -/
structure Layout (path : Nat → ν) (s : Splitter) (fs : FileSystem ν) (h : Nat)
    (later : List Nat) : Prop where
  lawful : fs.Lawful
  wid_eq : s.wid = s.rid + later.length
  named : Named path fs (s.rid + 1) later
  /-- No part was made after the one being written. -/
  above : ∀ k, s.wid < k → fs.find (path k) = none
  wfile : s.wfile = some (later.getLastD h)
  woffset : (fs.content (later.getLastD h)).length = s.woffset
  rfile : s.rfile = none ∨ s.rfile = some h
  /-- The part being read has its name, or it is open and nothing has that name. -/
  head : fs.find (path s.rid) = some h ∨ s.rfile = some h ∧ ∀ n, fs.find n ≠ some h
  position : s.rfile = some h → partHeaderSize ≤ s.roffset ∧ s.roffset ≤ (fs.content h).length
  size : ∀ i ∈ h :: later, partHeaderSize ≤ (fs.content i).length ∧ i < fs.fresh

/-- Where the next byte is read in the first part. -/
def Splitter.position (s : Splitter) : Nat := if s.rfile.isSome then s.roffset else partHeaderSize

/-- The bytes of a part. -/
def body (fs : FileSystem ν) (i : Nat) : Bytes := (fs.content i).drop partHeaderSize

/-- The bytes still to be read. -/
def unread (s : Splitter) (fs : FileSystem ν) (h : Nat) (later : List Nat) : Bytes :=
  (fs.content h).drop s.position ++ later.flatMap (body fs)

/-! ## Names -/

variable {fs : FileSystem ν}

theorem Named.mem : ∀ {k : Nat} {is : List Nat}, Named path fs k is →
    ∀ i ∈ is, ∃ j, k ≤ j ∧ j < k + is.length ∧ fs.find (path j) = some i := by
  intro k is
  induction is generalizing k with
  | nil => intro _ i hi; cases hi
  | cons a is ih =>
    intro hn i hi
    rcases List.mem_cons.mp hi with rfl | hi
    · exact ⟨k, Nat.le_refl k, by simp, hn.1⟩
    · obtain ⟨j, h1, h2, h3⟩ := ih hn.2 i hi
      refine ⟨j, by omega, ?_, h3⟩
      rw [List.length_cons]
      omega

theorem Named.congr {fs' : FileSystem ν} : ∀ {k : Nat} {is : List Nat}, Named path fs k is →
    (∀ j, k ≤ j → j < k + is.length → fs'.find (path j) = fs.find (path j)) →
    Named path fs' k is := by
  intro k is
  induction is generalizing k with
  | nil => intro _ _; trivial
  | cons a is ih =>
    intro hn heq
    refine ⟨?_, ih hn.2 fun j h1 h2 => heq j (by omega) ?_⟩
    · rw [heq k (Nat.le_refl k) (by simp)]
      exact hn.1
    · rw [List.length_cons]
      omega

variable {i : Nat}

theorem Named.concat : ∀ {k : Nat} {is : List Nat},
    Named path fs k is → fs.find (path (k + is.length)) = some i →
    Named path fs k (is ++ [i]) := by
  intro k is
  induction is generalizing k with
  | nil => intro _ hi; exact ⟨hi, trivial⟩
  | cons a is ih =>
    intro hn hi
    refine ⟨hn.1, ih hn.2 ?_⟩
    rw [List.length_cons, ← Nat.add_assoc, Nat.add_right_comm] at hi
    exact hi

/-- No inode is in two parts. -/
theorem Named.nodup (hl : fs.Lawful) (hpath : Function.Injective path) :
    ∀ {k : Nat} {is : List Nat}, Named path fs k is → is.Nodup := by
  intro k is
  induction is generalizing k with
  | nil => intro _; exact List.nodup_nil
  | cons a is ih =>
    intro hn
    refine List.nodup_cons.mpr ⟨fun ha => ?_, ih hn.2⟩
    obtain ⟨j, h1, _, h3⟩ := Named.mem hn.2 a ha
    have := hpath (hl.find_inj hn.1 h3)
    omega

variable {s : Splitter} {later : List Nat} {h : Nat}

/-- The part being read is none of the later ones. -/
theorem Layout.head_not_mem (hpath : Function.Injective path)
    (L : Layout path s fs h later) : h ∉ later := by
  intro hm
  obtain ⟨j, h1, _, h3⟩ := Named.mem L.named h hm
  rcases L.head with hh | ⟨_, hh⟩
  · have := hpath (L.lawful.find_inj hh h3)
    omega
  · exact hh _ h3

theorem Layout.nodup (hpath : Function.Injective path)
    (L : Layout path s fs h later) : (h :: later).Nodup :=
  List.nodup_cons.mpr ⟨L.head_not_mem hpath, Named.nodup L.lawful hpath L.named⟩

/-! ## Writing -/

omit [DecidableEq ν] in
/-- Bytes added to the last part are added to what is still to be read. -/
theorem unread_append {s' : Splitter}
    (hnd : (h :: later).Nodup) (hsize : ∀ i ∈ h :: later, partHeaderSize ≤ (fs.content i).length)
    (hpos : s.position ≤ (fs.content h).length) (hs : s'.position = s.position) (b : Bytes) :
    unread s' (fs.append (later.getLastD h) b) h later = unread s fs h later ++ b := by
  rcases List.eq_nil_or_concat' later with rfl | ⟨init, w, rfl⟩
  · simp only [unread, List.getLastD_nil, List.flatMap_nil, List.append_nil, hs,
      content_append_self]
    exact List.drop_append_of_le_length hpos
  · have hw : (init ++ [w]).getLastD h = w := by simp
    have hne : ∀ i ∈ h :: init, i ≠ w := by
      intro i hi he
      subst he
      have h1 : (h :: init ++ [i]).Nodup := hnd
      exact (List.nodup_append.mp h1).2.2 i hi i List.mem_cons_self rfl
    have hinit : init.flatMap (body (fs.append w b)) = init.flatMap (body fs) := by
      refine List.flatMap_congr fun i hi => ?_
      rw [body, content_append_of_ne fs (hne i (List.mem_cons_of_mem _ hi)), body]
    have hlast : body (fs.append w b) w = body fs w ++ b := by
      rw [body, content_append_self, body]
      exact List.drop_append_of_le_length (hsize w (by simp))
    rw [hw, unread, unread, hs, content_append_of_ne fs (hne h List.mem_cons_self),
      List.flatMap_append, List.flatMap_append, hinit, List.flatMap_singleton,
      List.flatMap_singleton, hlast, List.append_assoc, List.append_assoc]

theorem Layout.sizes
    (L : Layout path s fs h later) :
    ∀ i ∈ h :: later, partHeaderSize ≤ (fs.content i).length := fun i hi => (L.size i hi).1

theorem Layout.position_le
    (L : Layout path s fs h later) : s.position ≤ (fs.content h).length := by
  rcases L.rfile with hr | hr
  · simpa [Splitter.position, hr] using L.sizes h List.mem_cons_self
  · simpa [Splitter.position, hr] using (L.position hr).2

omit [DecidableEq ν] in
theorem fwrite_eq {f : Nat} (h : s.wfile = some f) (fs : FileSystem ν) (b : Bytes) :
    fwrite s fs b = ({ s with woffset := s.woffset + b.length }, fs.append f b) := by
  rw [fwrite, h]

/-- Adding bytes at the end of the last part keeps everything in place. -/
theorem Layout.append (hpath : Function.Injective path)
    (L : Layout path s fs h later) (b : Bytes) :
    Layout path (fwrite s fs b).1 (fwrite s fs b).2 h later ∧
      unread (fwrite s fs b).1 (fwrite s fs b).2 h later = unread s fs h later ++ b := by
  rw [fwrite_eq L.wfile]
  have hlen : ∀ i, (fs.content i).length ≤
      ((fs.append (later.getLastD h) b).content i).length := by
    intro i
    by_cases hi : i = later.getLastD h
    · rw [hi, content_append_self, List.length_append]
      exact Nat.le_add_right _ _
    · rw [content_append_of_ne fs hi]
  refine ⟨?_, unread_append (L.nodup hpath) L.sizes L.position_le rfl b⟩
  exact
    { lawful := L.lawful.append _ _
      wid_eq := L.wid_eq
      named := L.named.congr fun _ _ _ => rfl
      above := L.above
      wfile := L.wfile
      woffset := by rw [content_append_self, List.length_append, L.woffset]
      rfile := L.rfile
      head := L.head
      position := fun hr => ⟨(L.position hr).1, Nat.le_trans (L.position hr).2 (hlen h)⟩
      size := fun i hi => ⟨Nat.le_trans (L.size i hi).1 (hlen i), (L.size i hi).2⟩ }

omit [DecidableEq ν] in
/-- Nothing of the reader is shared with a part it does not have open. -/
theorem no_share (h : s.rfile = none ∨ s.wid ≠ s.rid) :
    (if s.wid = s.rid then s.rfile else none) = none := by
  rcases h with h | h
  · rw [h, ite_self]
  · exact if_neg h

/-- A part that does not exist is made, with a header in it. -/
theorem openWriteFile_new (h : s.rfile = none ∨ s.wid ≠ s.rid)
    (hnone : fs.find (path s.wid) = none) :
    openWriteFile path s fs =
      ({ s with wfile := some fs.fresh, woffset := partHeaderSize },
        (fs.openAppend (path s.wid)).2.append fs.fresh partHeader) := by
  obtain ⟨h1, h2, _⟩ := openAppend_new hnone
  unfold openWriteFile
  rw [no_share h]
  dsimp only
  rw [h1, h2, if_pos (by decide)]

/-- A part that exists, with its header, is written at its end. -/
theorem openWriteFile_old
    (h : s.rfile = none ∨ s.wid ≠ s.rid) (hi : fs.find (path s.wid) = some i)
    (hsize : partHeaderSize ≤ (fs.content i).length) :
    openWriteFile path s fs =
      ({ s with wfile := some i, woffset := (fs.content i).length }, fs) := by
  unfold openWriteFile
  rw [no_share h]
  dsimp only
  rw [openAppend_of_find hi, if_neg (Nat.not_lt.mpr hsize)]

/-- A new part is an inode with a header in it, and nothing to read. -/
theorem Layout.rollover (hpath : Function.Injective path)
    (L : Layout path s fs h later) :
    ∃ s' fs', openWriteFile path { s with wid := s.wid + 1 } fs = (s', fs') ∧
      Layout path s' fs' h (later ++ [fs.fresh]) ∧
      unread s' fs' h (later ++ [fs.fresh]) = unread s fs h later := by
  have hrid : ¬ s.wid + 1 = s.rid := by
    have := L.wid_eq
    omega
  have hnone : fs.find (path (s.wid + 1)) = none := L.above _ (Nat.lt_succ_self _)
  obtain ⟨h1, h2, h3⟩ := openAppend_new hnone
  have hself := find_openAppend_self fs (path (s.wid + 1))
  rw [h1] at hself
  have hfind : ∀ k, k ≠ s.wid + 1 →
      (fs.openAppend (path (s.wid + 1))).2.find (path k) = fs.find (path k) := fun k hk =>
    find_openAppend_of_ne fs fun he => hk (hpath he)
  have hfresh : ∀ i ∈ h :: later, i ≠ fs.fresh := fun i hi => Nat.ne_of_lt (L.size i hi).2
  generalize hfs' : (fs.openAppend (path (s.wid + 1))).2.append fs.fresh partHeader = fs'
  have hcontent : ∀ i ∈ h :: later, fs'.content i = fs.content i := by
    intro i hi
    rw [← hfs', content_append_of_ne _ (hfresh i hi),
      content_openAppend_of_ne fs (hfresh i hi)]
  have hnew : fs'.content fs.fresh = partHeader := by
    rw [← hfs', content_append_self, h2]
    rfl
  refine ⟨{ s with wid := s.wid + 1, wfile := some fs.fresh, woffset := partHeaderSize },
    fs', ?_, ?_, ?_⟩
  · rw [openWriteFile_new (s := { s with wid := s.wid + 1 }) (Or.inr hrid) hnone, hfs']
  · have hlawful : fs'.Lawful := by
      rw [← hfs']
      exact (L.lawful.openAppend _).append _ _
    have hold : ∀ k, k ≠ s.wid + 1 → fs'.find (path k) = fs.find (path k) := by
      intro k hk
      rw [← hfs', find_append]
      exact hfind k hk
    have hmade : fs'.find (path (s.wid + 1)) = some fs.fresh := by
      rw [← hfs', find_append]
      exact hself
    have hlast : (later ++ [fs.fresh]).getLastD h = fs.fresh := by simp
    have hfr : fs'.fresh = fs.fresh + 1 := by
      rw [← hfs', fresh_append]
      exact h3
    exact
      { lawful := hlawful
        wid_eq := by
          show s.wid + 1 = s.rid + (later ++ [fs.fresh]).length
          rw [L.wid_eq, List.length_append, List.length_singleton, Nat.add_assoc]
        named := by
          refine Named.concat (L.named.congr fun j _ hj => hold j ?_) ?_
          · have := L.wid_eq
            omega
          · have hk : s.rid + 1 + later.length = s.wid + 1 := by
              rw [L.wid_eq, Nat.add_right_comm]
            rw [hk]
            exact hmade
        above := fun k hk => by
          rw [hold k (Nat.ne_of_gt hk)]
          exact L.above k (Nat.lt_of_succ_lt hk)
        wfile := by rw [hlast]
        woffset := by
          rw [hlast, hnew]
          rfl
        rfile := L.rfile
        head := by
          rcases L.head with hh | ⟨hr, hh⟩
          · exact Or.inl (by rw [hold _ (Ne.symm hrid)]; exact hh)
          · refine Or.inr ⟨hr, fun n hn => ?_⟩
            rw [← hfs', find_append] at hn
            by_cases hne : n = path (s.wid + 1)
            · rw [hne, hself] at hn
              exact hfresh h List.mem_cons_self (Option.some.inj hn).symm
            · rw [find_openAppend_of_ne fs hne] at hn
              exact hh n hn
        position := fun hr => by
          rw [hcontent h List.mem_cons_self]
          exact L.position hr
        size := fun i hi => by
          rcases List.mem_cons.mp hi with rfl | hi
          · rw [hcontent _ List.mem_cons_self, hfr]
            exact ⟨(L.size _ List.mem_cons_self).1,
              Nat.lt_succ_of_lt (L.size _ List.mem_cons_self).2⟩
          · rcases List.mem_append.mp hi with hi | hi
            · have hm := List.mem_cons_of_mem h hi
              rw [hcontent i hm, hfr]
              exact ⟨(L.size i hm).1, Nat.lt_succ_of_lt (L.size i hm).2⟩
            · rw [List.mem_singleton.mp hi, hnew, hfr]
              exact ⟨Nat.le_refl _, Nat.lt_succ_self _⟩ }
  · have hlater : later.flatMap (body fs') = later.flatMap (body fs) :=
      List.flatMap_congr fun i hi => by rw [body, hcontent i (List.mem_cons_of_mem h hi), body]
    have hempty : body fs' fs.fresh = [] := by
      rw [body, hnew]
      rfl
    rw [unread, unread, List.flatMap_append, List.flatMap_singleton, hlater, hempty,
      List.append_nil, hcontent h List.mem_cons_self]
    rfl

/-! ## Reading -/

/-- Opening the part to read moves nothing. -/
theorem Layout.openRead
    (L : Layout path s fs h later) :
    Layout path (readFile path s fs) fs h later ∧
      unread (readFile path s fs) fs h later = unread s fs h later ∧
      (readFile path s fs).rfile = some h := by
  rcases L.rfile with hr | hr
  · have hopen : readFile path s fs = { s with rfile := some h, roffset := partHeaderSize } := by
      have hnone : s.rfile.isNone = true := by rw [hr]; rfl
      rw [readFile, if_pos hnone, openReadFile]
      by_cases hw : s.rid = s.wid ∧ s.wfile.isSome = true
      · -- the part being read is the one being written
        have hl : later = [] := by
          apply List.eq_nil_of_length_eq_zero
          have := L.wid_eq
          omega
        rw [if_pos hw, L.wfile, hl]
        rfl
      · have hh : fs.find (path s.rid) = some h := by
          rcases L.head with hh | ⟨hs, _⟩
          · exact hh
          · rw [hr] at hs; cases hs
        rw [if_neg hw, hh]
    rw [hopen]
    refine ⟨?_, ?_, rfl⟩
    · exact
        { lawful := L.lawful
          wid_eq := L.wid_eq
          named := L.named
          above := L.above
          wfile := L.wfile
          woffset := L.woffset
          rfile := Or.inr rfl
          head := by
            rcases L.head with hh | ⟨hs, _⟩
            · exact Or.inl hh
            · rw [hr] at hs; cases hs
          position := fun _ => ⟨Nat.le_refl _, L.sizes h List.mem_cons_self⟩
          size := L.size }
    · rw [unread, unread]
      simp [Splitter.position, hr]
  · have hopen : readFile path s fs = s := by
      rw [readFile, hr]
      rfl
    rw [hopen]
    exact ⟨L, rfl, hr⟩

/-- Removing the name of the part being read moves nothing: it is still open. -/
theorem Layout.remove (hpath : Function.Injective path)
    (L : Layout path s fs h later) (hr : s.rfile = some h) :
    Layout path s (fs.remove (path s.rid)) h later where
  lawful := L.lawful.remove _
  wid_eq := L.wid_eq
  named := L.named.congr fun j hj _ => find_remove_of_ne fs fun he => by
    have := hpath he
    omega
  above := fun k hk => by
    have hne : path k ≠ path s.rid := fun he => by
      have := hpath he
      have := L.wid_eq
      omega
    rw [find_remove_of_ne fs hne]
    exact L.above k hk
  wfile := L.wfile
  woffset := L.woffset
  rfile := L.rfile
  head := by
    refine Or.inr ⟨hr, fun n hn => ?_⟩
    by_cases hne : n = path s.rid
    · rw [hne, find_remove_self] at hn
      cases hn
    · rw [find_remove_of_ne fs hne] at hn
      rcases L.head with hh | ⟨_, hh⟩
      · exact hne (L.lawful.find_inj hn hh)
      · exact hh n hn
  position := L.position
  size := L.size

/-- The part after the one being read, not open yet. -/
theorem Layout.skip
    (L : Layout path s fs h (i :: later)) :
    Layout path { s with rid := s.rid + 1, rfile := none } fs i later where
  lawful := L.lawful
  wid_eq := by
    show s.wid = s.rid + 1 + later.length
    rw [L.wid_eq, List.length_cons, Nat.add_assoc, Nat.add_comm 1]
  named := L.named.2
  above := L.above
  wfile := L.wfile.trans (by rw [List.getLastD_cons])
  woffset := by
    have hw := L.woffset
    rw [List.getLastD_cons] at hw
    exact hw
  rfile := Or.inl rfl
  head := Or.inl L.named.1
  position := nofun
  size := fun j hj => L.size j (List.mem_cons_of_mem h hj)

omit [DecidableEq ν] in
theorem unread_skip (s : Splitter) (fs : FileSystem ν) (i : Nat) (later : List Nat) :
    unread { s with rid := s.rid + 1, rfile := none } fs i later =
      (i :: later).flatMap (body fs) := rfl

/-- What was open does not matter to what gets open. -/
theorem openReadFile_rfile (s : Splitter) (fs : FileSystem ν) :
    openReadFile path s fs = openReadFile path { s with rfile := none } fs := by
  unfold openReadFile
  split <;> rfl

/-- **A part read to its end is left for the next one**, and nothing moves. -/
theorem Layout.nextPart (hpath : Function.Injective path)
    (L : Layout path s fs h (i :: later)) (hr : s.rfile = some h)
    (fs₁ : FileSystem ν) (hfs : fs₁ = if s.auto_delete then fs.remove (path s.rid) else fs) :
    Layout path (openReadFile path { s with rid := s.rid + 1 } fs₁) fs₁ i later ∧
      unread (openReadFile path { s with rid := s.rid + 1 } fs₁) fs₁ i later =
        (i :: later).flatMap (body fs) := by
  have hcontent : body fs₁ = body fs := by
    rw [hfs]
    split <;> rfl
  have L₁ : Layout path s fs₁ h (i :: later) := by
    rw [hfs]
    split
    · exact L.remove hpath hr
    · exact L
  have hopen := L₁.skip.openRead
  have hread : readFile path { s with rid := s.rid + 1, rfile := none } fs₁ =
      openReadFile path { s with rid := s.rid + 1 } fs₁ := by
    rw [openReadFile_rfile { s with rid := s.rid + 1 }]
    rfl
  rw [hread, unread_skip, hcontent] at hopen
  exact ⟨hopen.1, hopen.2.1⟩

/-- Reading forward in the part being read. -/
theorem Layout.advance
    (L : Layout path s fs h later) (hr : s.rfile = some h) {n : Nat}
    (hn : s.roffset + n ≤ (fs.content h).length) :
    Layout path { s with roffset := s.roffset + n } fs h later where
  lawful := L.lawful
  wid_eq := L.wid_eq
  named := L.named
  above := L.above
  wfile := L.wfile
  woffset := L.woffset
  rfile := L.rfile
  head := L.head
  position := fun _ => ⟨Nat.le_add_right_of_le (L.position hr).1, hn⟩
  size := L.size

end CentreonBroker.File
