import CentreonBroker.File.Frame
import CentreonBroker.File.Reopen

/-!
# Parts that are missing

The reader goes from the least number to the greatest, one by one. Where all the parts in
between are there it gives their bytes, then the shutdown. A part that is missing is where it
stays: each read tries to open it again, and gives zero bytes.
-/

namespace CentreonBroker.File

open Bytes

/-- Reads of these sizes give these bytes, and then the shutdown. -/
inductive Drains : (ℕ → ℕ) → Splitter → FileSystem ℕ → Bytes → Prop
  | shutdown {sizes : ℕ → ℕ} {s s' : Splitter} {fs fs' : FileSystem ℕ}
      (h : read id (sizes 0) s fs = (.shutdown, s', fs')) : Drains sizes s fs []
  | bytes {sizes : ℕ → ℕ} {s s' : Splitter} {fs fs' : FileSystem ℕ} {b u : Bytes}
      (h : read id (sizes 0) s fs = (.bytes b, s', fs'))
      (rest : Drains (fun n => sizes (n + 1)) s' fs' u) : Drains sizes s fs (b ++ u)
  /-- Zero bytes, and no error. -/
  | zero {sizes : ℕ → ℕ} {s s' : Splitter} {fs fs' : FileSystem ℕ} {u : Bytes}
      (st : ReadStatus) (hst : st = .missing ∨ st = .idle)
      (h : read id (sizes 0) s fs = (st, s', fs'))
      (rest : Drains (fun n => sizes (n + 1)) s' fs' u) : Drains sizes s fs u

/-! ## What is ahead of the reader -/

section Ahead

/-- The bytes of the part numbered `k`, as the reader opens it. -/
def partBytes (wid : ℕ) (wfile : Option ℕ) (fs : FileSystem ℕ) (k : ℕ) : Bytes :=
  match readInode wid wfile fs k with
  | some f => body fs f
  | none => []

/-- The bytes that the reader has not given. -/
def ahead (s : Splitter) (fs : FileSystem ℕ) : Bytes :=
  (match s.rfile with
    | some f => (fs.content f).drop s.roffset
    | none => partBytes s.wid s.wfile fs s.rid) ++
  (List.range' (s.rid + 1) (s.wid - s.rid)).flatMap (partBytes s.wid s.wfile fs)

/-- No part is missing from the one being read on. -/
structure Complete (s : Splitter) (fs : FileSystem ℕ) : Prop where
  le : s.rid ≤ s.wid
  here : s.rfile ≠ none ∨ readInode s.wid s.wfile fs s.rid ≠ none
  later : ∀ k, s.rid < k → k ≤ s.wid → readInode s.wid s.wfile fs k ≠ none

variable {s : Splitter} {fs : FileSystem ℕ}

/-- The part is opened, and nothing moves. -/
theorem Complete.open (C : Complete s fs) :
    ∃ f, (readFile id s fs).rfile = some f ∧ Complete (readFile id s fs) fs ∧
      ahead (readFile id s fs) fs = ahead s fs := by
  cases hr : s.rfile with
  | some f =>
    have hself : readFile id s fs = s := if_neg (by rw [hr]; exact Bool.false_ne_true)
    rw [hself]
    exact ⟨f, hr, C, rfl⟩
  | none =>
    have hopen : readFile id s fs = openReadFile id s fs := if_pos (by rw [hr]; rfl)
    have hhere := C.here.resolve_left (not_not.mpr hr)
    obtain ⟨f, hf⟩ := Option.ne_none_iff_exists'.mp hhere
    rw [hopen, openReadFile_eq, hf]
    refine ⟨f, rfl, ⟨C.le, Or.inl (Option.some_ne_none f), C.later⟩, ?_⟩
    simp only [ahead, hr, partBytes, hf, Option.isSome_some, if_true]
    rfl

/-- Going past a part whose name may be removed moves none of the later ones. -/
theorem find_afterPart (k : ℕ) (hk : s.rid < k) : (afterPart id s fs).find k = fs.find k := by
  rw [afterPart]
  split
  · exact FileSystem.find_remove_of_ne fs (Nat.ne_of_gt hk)
  · rfl

theorem readInode_afterPart (k : ℕ) (hk : s.rid < k) :
    readInode s.wid s.wfile (afterPart id s fs) k = readInode s.wid s.wfile fs k := by
  rw [readInode, readInode, find_afterPart k hk]

theorem content_afterPart : (afterPart id s fs).content = fs.content := by
  rw [afterPart]
  split
  · rfl
  · rfl

theorem partBytes_afterPart (k : ℕ) (hk : s.rid < k) :
    partBytes s.wid s.wfile (afterPart id s fs) k = partBytes s.wid s.wfile fs k := by
  rw [partBytes, partBytes, readInode_afterPart k hk]
  cases readInode s.wid s.wfile fs k with
  | none => rfl
  | some f => simp only [body, content_afterPart]

/-- After the end of a part that is not the last one, the next one is there. -/
theorem Complete.next {f : ℕ} (C : Complete s fs) (hf : s.rfile = some f)
    (hend : (fs.content f).drop s.roffset = []) (hlt : s.rid < s.wid) :
    Complete (nextPart id s (afterPart id s fs)) (afterPart id s fs) ∧
      ahead (nextPart id s (afterPart id s fs)) (afterPart id s fs) = ahead s fs := by
  have hlater : ∀ k, s.rid < k → k ≤ s.wid →
      readInode s.wid s.wfile (afterPart id s fs) k ≠ none := by
    intro k hk hle
    rw [readInode_afterPart k hk]
    exact C.later k hk hle
  have hnext := hlater (s.rid + 1) (Nat.lt_succ_self _) hlt
  obtain ⟨g, hg⟩ := Option.ne_none_iff_exists'.mp hnext
  rw [nextPart, openReadFile_eq]
  simp only [hg]
  refine ⟨⟨hlt, Or.inl (Option.some_ne_none g), fun k hk => hlater k (Nat.lt_of_succ_lt hk)⟩, ?_⟩
  -- the part that was read has nothing left, and the next one is at its beginning
  have hsplit : s.wid - s.rid = s.wid - (s.rid + 1) + 1 := by omega
  have hbytes : ∀ k ∈ List.range' (s.rid + 1) (s.wid - s.rid),
      partBytes s.wid s.wfile (afterPart id s fs) k = partBytes s.wid s.wfile fs k := by
    intro k hk
    obtain ⟨hk, -⟩ := List.mem_range'_1.mp hk
    exact partBytes_afterPart k hk
  have hlist := List.flatMap_congr hbytes
  simp only [ahead, hf, hend, List.nil_append, Option.isSome_some, if_true]
  rw [← hlist, hsplit, List.range'_succ, List.flatMap_cons]
  congr 1
  rw [partBytes, hg]
  rfl

/-- **A read of a splitter that misses no part** gives what comes next, or else all was given. -/
theorem Complete.read {max_size : ℕ} (hm : max_size ≠ 0) (C : Complete s fs) :
    (∃ b s' fs', read id max_size s fs = (.bytes b, s', fs') ∧ b ≠ [] ∧ Complete s' fs' ∧
        ahead s fs = b ++ ahead s' fs') ∨
      ∃ s' fs', File.read id max_size s fs = (.shutdown, s', fs') ∧ Complete s' fs' ∧
        ahead s fs = [] := by
  induction hn : s.wid - s.rid using Nat.strongRecOn generalizing s fs with
  | ind n ih =>
    obtain ⟨f, hf, C₁, hahead⟩ := C.open
    rw [← hahead]
    by_cases hend : (fs.content f).drop (readFile id s fs).roffset = []
    · rw [read_end hf hm hend rfl]
      by_cases hlt : (readFile id s fs).rid < (readFile id s fs).wid
      · rw [if_pos hlt]
        obtain ⟨C₂, hahead₂⟩ := C₁.next hf hend hlt
        rw [← hahead₂]
        exact ih _ (hn ▸ nextPart_measure _ hlt) C₂ rfl
      · rw [if_neg hlt]
        have hle := C₁.le
        have hnil : (readFile id s fs).wid - (readFile id s fs).rid = 0 := by omega
        refine Or.inr ⟨_, _, rfl, ⟨hle, Or.inl ?_, fun k hk hle => by omega⟩, ?_⟩
        · rw [hf]
          exact Option.some_ne_none f
        · simp only [ahead, hf, hend, hnil, List.range'_zero, List.flatMap_nil, List.append_nil]
    · have htake : ((fs.content f).drop (readFile id s fs).roffset).take max_size ≠ [] := by
        intro hnil
        rcases List.take_eq_nil_iff.mp hnil with h0 | h0
        · exact hm h0
        · exact hend h0
      rw [read_bytes hf htake]
      refine Or.inl ⟨_, _, _, rfl, htake, ⟨C₁.le, C₁.here, C₁.later⟩, ?_⟩
      simp only [ahead, hf]
      rw [← List.append_assoc]
      congr 1
      rw [← List.drop_drop]
      generalize (fs.content f).drop (readFile id s fs).roffset = l
      rw [List.length_take]
      rcases Nat.le_total max_size l.length with hle | hle
      · rw [Nat.min_eq_left hle, List.take_append_drop]
      · rw [Nat.min_eq_right hle, List.take_of_length_le hle, List.drop_length, List.append_nil]

/-- **All the bytes come, then the shutdown**, whatever the sizes of the reads. -/
theorem Complete.drains (C : Complete s fs) {sizes : ℕ → ℕ} (hsizes : ∀ n, 0 < sizes n) :
    Drains sizes s fs (ahead s fs) := by
  induction hn : (ahead s fs).length using Nat.strongRecOn generalizing s fs sizes with
  | ind n ih =>
    rcases C.read (Nat.ne_of_gt (hsizes 0)) with ⟨b, s', fs', hr, hb, C', heq⟩ | ⟨s', fs', hr, -, heq⟩
    · rw [heq]
      have hlen := List.length_pos_iff.mpr hb
      rw [heq, List.length_append] at hn
      exact Drains.bytes hr (ih _ (by omega) C' (fun n => hsizes (n + 1)) rfl)
    · rw [heq]
      exact Drains.shutdown hr

/-- The sizes and the state determine the bytes. -/
theorem Drains.unique {sizes : ℕ → ℕ} {u u' : Bytes} (h : Drains sizes s fs u)
    (h' : Drains sizes s fs u') : u = u' := by
  induction h generalizing u' with
  | shutdown h =>
    cases h' with
    | shutdown h' => rfl
    | bytes h' _ => cases h.symm.trans h'
    | zero st hst h' _ =>
      cases h.symm.trans h'
      rcases hst with hst | hst
      · cases hst
      · cases hst
  | bytes h _ ih =>
    cases h' with
    | shutdown h' => cases h.symm.trans h'
    | bytes h' rest' =>
      cases h.symm.trans h'
      rw [ih rest']
    | zero st hst h' _ =>
      cases h.symm.trans h'
      rcases hst with hst | hst
      · cases hst
      · cases hst
  | zero st hst h _ ih =>
    cases h' with
    | shutdown h' | bytes h' _ =>
      cases h.symm.trans h'
      rcases hst with hst | hst
      · cases hst
      · cases hst
    | zero st' hst' h' rest' =>
      cases h.symm.trans h'
      exact ih rest'

/-! ## A part that is missing -/

/-- A part that is not the last one is missing, and the reader is not past it. -/
def Gap (s : Splitter) (fs : FileSystem ℕ) : Prop :=
  ∃ g, s.rid ≤ g ∧ g < s.wid ∧ fs.find g = none ∧ (s.rid = g → s.rfile = none)

theorem Gap.open (h : Gap s fs) : Gap (readFile id s fs) fs := by
  obtain ⟨g, hle, hlt, hfind, hnone⟩ := h
  cases hr : s.rfile with
  | some f =>
    have hself : readFile id s fs = s := if_neg (by rw [hr]; exact Bool.false_ne_true)
    rw [hself]
    exact ⟨g, hle, hlt, hfind, hnone⟩
  | none =>
    have hopen : readFile id s fs = openReadFile id s fs := if_pos (by rw [hr]; rfl)
    rw [hopen, openReadFile_eq]
    refine ⟨g, hle, hlt, hfind, fun heq => ?_⟩
    obtain rfl : s.rid = g := heq
    show readInode s.wid s.wfile fs s.rid = none
    rw [readInode, if_neg (fun h => absurd h.1 (Nat.ne_of_lt hlt)), hfind]

/-- **Where a part is missing the shutdown never comes.** -/
theorem Gap.read (h : Gap s fs) (max_size : ℕ) :
    (File.read id max_size s fs).1 ≠ .shutdown ∧
      Gap (File.read id max_size s fs).2.1 (File.read id max_size s fs).2.2 := by
  induction hn : s.wid - s.rid using Nat.strongRecOn generalizing s fs with
  | ind n ih =>
    have hopen := h.open
    rw [read_eq]
    split
    · exact ⟨fun h => (by cases h), hopen⟩
    · rename_i f hf
      dsimp only
      split
      · obtain ⟨g, hle, hlt, hfind, hnone⟩ := hopen
        refine ⟨fun h => (by cases h), g, hle, hlt, hfind, fun heq => ?_⟩
        exact hnone heq
      · split
        · exact ⟨fun h => (by cases h), hopen⟩
        · obtain ⟨g, hle, hlt, hfind, hnone⟩ := hopen
          -- the part being read is there, so that the one that is missing comes after it
          have hne : (readFile id s fs).rid ≠ g := by
            intro heq
            rw [hnone heq] at hf
            cases hf
          have hrid : (readFile id s fs).rid < g := Nat.lt_of_le_of_ne hle hne
          have hlast : (readFile id s fs).rid < (readFile id s fs).wid := Nat.lt_trans hrid hlt
          rw [if_pos hlast]
          refine ih _ (hn ▸ nextPart_measure _ hlast) ?_ rfl
          have hgone : (afterPart id (readFile id s fs) fs).find g = none :=
            (find_afterPart g hrid).trans hfind
          rw [nextPart, openReadFile_eq]
          refine ⟨g, hrid, hlt, hgone, fun heq => ?_⟩
          have heq : (readFile id s fs).rid + 1 = g := heq
          show readInode _ _ _ ((readFile id s fs).rid + 1) = none
          rw [heq, readInode, if_neg (fun h => absurd h.1 (Nat.ne_of_lt hlt)), hgone]

theorem Gap.not_drains (h : Gap s fs) {sizes : ℕ → ℕ} {u : Bytes} : ¬ Drains sizes s fs u := by
  intro hd
  induction hd with
  | @shutdown sizes s s' fs fs' hr =>
    have hread := (h.read (sizes 0)).1
    rw [hr] at hread
    exact hread rfl
  | @bytes sizes s s' fs fs' b u hr _ ih | @zero sizes s s' fs fs' u st _ hr _ ih =>
    have hread := (h.read (sizes 0)).2
    rw [hr] at hread
    exact ih hread

end Ahead

/-! ## Opening a splitter -/

section Opening

variable (fs : FileSystem ℕ)

/-- The parts that are present, by increasing number. -/
def presentIds : List ℕ := (fs.dir.map Prod.fst).toFinset.sort (· ≤ ·)

/-- The bytes of all the parts that are present, by increasing number. -/
def allBytes : Bytes :=
  (presentIds fs).flatMap fun k => ((fs.find k).map (body fs)).getD []

/-- No part is missing between two that are present. -/
def Contiguous : Prop := ∀ i j k, fs.find i ≠ none → fs.find j ≠ none → i ≤ k → k ≤ j →
  fs.find k ≠ none

/-- The last part is empty, or not shorter than the header of a part. -/
def LastWhole : Prop := ∀ k f, fs.find k = some f → (∀ j, fs.find j ≠ none → j ≤ k) →
  (fs.content f).length = 0 ∨ partHeaderSize ≤ (fs.content f).length

variable {fs}

theorem mem_presentIds {k : ℕ} : k ∈ presentIds fs ↔ fs.find k ≠ none := by
  rw [presentIds, Finset.mem_sort, List.mem_toFinset]
  have hids := File.mem_partIds fs k
  constructor
  · intro hk
    obtain ⟨j, hj, hfind⟩ := hids.mp (by
      obtain ⟨e, he, rfl⟩ := List.mem_map.mp hk
      exact List.mem_map.mpr ⟨e, he, rfl⟩)
    rwa [Nat.cast_injective hj]
  · intro hk
    obtain ⟨f, hf⟩ := Option.ne_none_iff_exists'.mp hk
    exact FileSystem.mem_names_of_find hf

/-- The numbers between two bounds, where all of them are present and no other. -/
theorem presentIds_eq {lo hi : ℕ} (hle : lo ≤ hi)
    (h : ∀ k, fs.find k ≠ none ↔ lo ≤ k ∧ k ≤ hi) :
    presentIds fs = List.range' lo (hi + 1 - lo) := by
  have hset : (fs.dir.map Prod.fst).toFinset = (List.range' lo (hi + 1 - lo)).toFinset := by
    refine Finset.ext fun k => ?_
    have hmem : k ∈ presentIds fs ↔ fs.find k ≠ none := mem_presentIds
    rw [presentIds, Finset.mem_sort] at hmem
    rw [hmem, h, List.mem_toFinset, List.mem_range'_1]
    omega
  rw [presentIds, hset]
  exact (List.toFinset_sort (· ≤ ·) (List.nodup_range' 1)).mpr
    ((List.pairwise_lt_range' 1).imp fun hlt => Nat.le_of_lt hlt)

/-- What the constructor makes where some part is present. The last one is in the inode `f`. -/
structure Opened (fs : FileSystem ℕ) (s : Splitter) (fs' : FileSystem ℕ) (f : ℕ) : Prop where
  first : fs.find s.rid ≠ none
  last : fs.find s.wid = some f
  between : ∀ k, fs.find k ≠ none → s.rid ≤ k ∧ k ≤ s.wid
  rfile : s.rfile = none
  wfile : s.wfile = some f
  find : fs'.find = fs.find
  content : fs'.content = if (fs.content f).length < partHeaderSize then
    Function.update fs.content f (fs.content f ++ partHeader) else fs.content

theorem start_present {i : ℕ} (hi : fs.find i ≠ none) (max_file_size : ℤ) (auto_delete : Bool) :
    ∃ s fs' f, start id max_file_size auto_delete (partIds fs) fs = (s, fs') ∧
      Opened fs s fs' f := by
  have hvals : (i : ℤ) ∈ partIds fs := (File.mem_partIds fs i).mpr ⟨i, rfl, hi⟩
  have hpos : ∀ v ∈ partIds fs, 0 ≤ v := by
    intro v hv
    obtain ⟨k, rfl, -⟩ := (File.mem_partIds fs v).mp hv
    exact Int.natCast_nonneg k
  obtain ⟨rid, wid, hscan, hrid, hwid, hbounds⟩ :=
    scanIds_spec (partIds fs) hpos (List.ne_nil_of_mem hvals)
  obtain ⟨lo, rfl, hlo⟩ := (File.mem_partIds fs rid).mp hrid
  obtain ⟨hi, rfl, hhi⟩ := (File.mem_partIds fs wid).mp hwid
  obtain ⟨f, hf⟩ := Option.ne_none_iff_exists'.mp hhi
  have hids : firstIds (partIds fs) = (lo, hi) := by
    unfold firstIds
    rw [hscan]
    rfl
  have hbetween : ∀ k, fs.find k ≠ none → lo ≤ k ∧ k ≤ hi := by
    intro k hk
    obtain ⟨hle, hge⟩ := hbounds k ((File.mem_partIds fs k).mpr ⟨k, rfl, hk⟩)
    exact ⟨Int.ofNat_le.mp hle, Int.ofNat_le.mp hge⟩
  unfold start
  rw [hids, openWriteFile_own (no_share (Or.inl rfl))]
  dsimp only [id_eq]
  rw [FileSystem.openAppend_of_find hf, headed]
  by_cases hshort : (fs.content f).length < partHeaderSize
  · rw [if_pos hshort]
    exact ⟨_, _, f, rfl, hlo, hf, hbetween, rfl, rfl, rfl, (if_pos hshort).symm⟩
  · rw [if_neg hshort]
    exact ⟨_, _, f, rfl, hlo, hf, hbetween, rfl, rfl, rfl, (if_neg hshort).symm⟩

/-- Where there is no part the constructor makes one, with nothing to read. -/
theorem start_absent (h : ∀ k, fs.find k = none) (max_file_size : ℤ) (auto_delete : Bool) :
    ∃ s fs', start id max_file_size auto_delete (partIds fs) fs = (s, fs') ∧ Complete s fs' ∧
      ahead s fs' = [] := by
  have hids : partIds fs = [] := by
    refine List.eq_nil_iff_forall_not_mem.mpr fun v hv => ?_
    obtain ⟨k, -, hk⟩ := (File.mem_partIds fs v).mp hv
    exact hk (h k)
  obtain ⟨-, hcontent, -⟩ := FileSystem.openAppend_new (h 0)
  rw [hids]
  unfold start
  have hfirst : firstIds [] = (0, 0) := rfl
  rw [hfirst, openWriteFile_new (Or.inl rfl) (h _)]
  refine ⟨_, _, rfl, ⟨Nat.le_refl 0, Or.inr (Option.some_ne_none _), fun k hk hle => ?_⟩, ?_⟩
  · exact absurd hle (Nat.not_le.mpr hk)
  · show (partBytes 0 (some fs.fresh) _ 0) ++ [] = []
    have hinode : ∀ fs' : FileSystem ℕ, readInode 0 (some fs.fresh) fs' 0 = some fs.fresh :=
      fun _ => rfl
    rw [List.append_nil, partBytes, hinode]
    show ((FileSystem.append _ fs.fresh partHeader).content fs.fresh).drop partHeaderSize = []
    rw [FileSystem.content_append_self, id_eq, hcontent]
    rfl

/-! ## What is read of it -/

section Opened

variable {s : Splitter} {fs' : FileSystem ℕ} {f : ℕ}

theorem Opened.readInode_eq (O : Opened fs s fs' f) (k : ℕ) :
    readInode s.wid s.wfile fs' k = fs.find k := by
  rw [readInode, O.wfile, O.find]
  split
  · rename_i h
    rw [h.1, O.last]
  · rfl

theorem Opened.partBytes_eq (O : Opened fs s fs' f) (k : ℕ) :
    partBytes s.wid s.wfile fs' k = ((fs.find k).map (body fs')).getD [] := by
  rw [partBytes, O.readInode_eq]
  cases fs.find k with
  | none => rfl
  | some g => rfl

theorem Opened.le (O : Opened fs s fs' f) : s.rid ≤ s.wid := (O.between s.rid O.first).2

/-- Without a gap the present parts are all those from the first to the last one. -/
theorem Opened.present_iff (O : Opened fs s fs' f) (h : Contiguous fs) (k : ℕ) :
    fs.find k ≠ none ↔ s.rid ≤ k ∧ k ≤ s.wid :=
  ⟨O.between k, fun hk => h s.rid s.wid k O.first (O.last ▸ Option.some_ne_none f) hk.1 hk.2⟩

theorem Opened.complete (O : Opened fs s fs' f) (h : Contiguous fs) : Complete s fs' := by
  refine ⟨O.le, Or.inr ?_, fun k hk hle => ?_⟩
  · rw [O.readInode_eq]
    exact O.first
  · rw [O.readInode_eq]
    exact (O.present_iff h k).mpr ⟨hk.le, hle⟩

/-- What is ahead of the reader: the parts before the last one, and that one. -/
theorem Opened.ahead_eq (O : Opened fs s fs' f) :
    ahead s fs' = (List.range' s.rid (s.wid - s.rid)).flatMap
      (fun k => ((fs.find k).map (body fs')).getD []) ++ body fs' f := by
  have hle := O.le
  have hrange : List.range' s.rid (s.wid - s.rid) ++ [s.wid] =
      s.rid :: List.range' (s.rid + 1) (s.wid - s.rid) := by
    have hlast := @List.range'_concat 1 s.rid (s.wid - s.rid)
    rw [Nat.one_mul, Nat.add_sub_cancel' hle] at hlast
    rw [← hlast, List.range'_succ]
  have hlast : body fs' f = [s.wid].flatMap fun k => ((fs.find k).map (body fs')).getD [] := by
    rw [List.flatMap_singleton, O.last]
    rfl
  rw [hlast, ← List.flatMap_append, hrange, List.flatMap_cons, ahead, O.rfile, ← O.partBytes_eq]
  congr 1
  exact List.flatMap_congr fun k _ => O.partBytes_eq k

theorem Opened.allBytes_eq (O : Opened fs s fs' f) (h : Contiguous fs) :
    allBytes fs = (List.range' s.rid (s.wid - s.rid)).flatMap
      (fun k => ((fs.find k).map (body fs)).getD []) ++ body fs f := by
  have hle := O.le
  have hlast := @List.range'_concat 1 s.rid (s.wid - s.rid)
  have hcount : s.wid + 1 - s.rid = s.wid - s.rid + 1 := by omega
  rw [Nat.one_mul, Nat.add_sub_cancel' hle] at hlast
  rw [allBytes, presentIds_eq hle (O.present_iff h), hcount, hlast, List.flatMap_append,
    List.flatMap_singleton, O.last]
  rfl

/-- A last part that does not break off in its header has the bytes that it had. -/
theorem Opened.ahead_of_lastWhole (O : Opened fs s fs' f) (h : Contiguous fs)
    (hlast : LastWhole fs) : ahead s fs' = allBytes fs := by
  have hwhole := hlast s.wid f O.last fun j hj => (O.between j hj).2
  have hbody : body fs' = body fs := by
    funext g
    rw [body, body, O.content]
    split
    · rename_i hshort
      have hempty : fs.content f = [] := List.eq_nil_of_length_eq_zero (by omega)
      by_cases hgf : g = f
      · rw [hgf, Function.update_self, hempty]
        rfl
      · rw [Function.update_of_ne hgf]
    · rfl
  rw [O.ahead_eq, O.allBytes_eq h, hbody]

/-- Behind a part that breaks off in its header the new header is read as data. -/
theorem Opened.lastWhole_of_ahead (O : Opened fs s fs' f) (h : Contiguous fs)
    (heq : ahead s fs' = allBytes fs) : LastWhole fs := by
  intro k g hg hlast
  have hk : k = s.wid := le_antisymm (O.between k (hg ▸ Option.some_ne_none g)).2
    (hlast s.wid (O.last ▸ Option.some_ne_none f))
  rw [hk, O.last] at hg
  obtain rfl := Option.some.inj hg
  by_contra hshort
  rw [not_or, not_le] at hshort
  have hcontent := O.content
  rw [if_pos hshort.2] at hcontent
  have hbody : ∀ g, (body fs g).length ≤ (body fs' g).length := by
    intro g
    rw [body, body, hcontent, List.length_drop, List.length_drop]
    by_cases hgf : g = f
    · rw [hgf, Function.update_self, List.length_append]
      omega
    · rw [Function.update_of_ne hgf]
  have hbefore : ((List.range' s.rid (s.wid - s.rid)).flatMap
      fun k => ((fs.find k).map (body fs)).getD []).length ≤
      ((List.range' s.rid (s.wid - s.rid)).flatMap
        fun k => ((fs.find k).map (body fs')).getD []).length := by
    rw [List.length_flatMap, List.length_flatMap]
    refine List.sum_le_sum fun k _ => ?_
    cases fs.find k with
    | none => exact Nat.le_refl _
    | some g => exact hbody g
  have hnew : (body fs' f).length = (fs.content f).length := by
    have hheader : partHeader.length = partHeaderSize := rfl
    rw [body, hcontent, Function.update_self, List.length_drop, List.length_append]
    omega
  have hold : (body fs f).length = 0 := by
    rw [body, List.length_drop]
    omega
  have hlength := congrArg List.length heq
  rw [O.ahead_eq, O.allBytes_eq h, List.length_append, List.length_append] at hlength
  omega

theorem Opened.gap (O : Opened fs s fs' f) (h : ¬ Contiguous fs) : Gap s fs' := by
  simp only [Contiguous, not_forall] at h
  obtain ⟨i, j, k, hi, hj, hik, hkj, hk⟩ := h
  have hk : fs.find k = none := not_not.mp hk
  have hlow := (O.between i hi).1
  have hhigh := (O.between j hj).2
  have hne : k ≠ s.wid := fun heq => Option.some_ne_none f (O.last.symm.trans (heq ▸ hk))
  exact ⟨k, by omega, by omega, by rw [O.find]; exact hk, fun _ => O.rfile⟩

end Opened

/--
**A splitter gives the bytes of all its parts and then the shutdown** if and only if no part is
missing in between, and the last one does not break off in its header: the constructor puts a
header behind what is there.
-/
theorem drains_start_iff (fs : FileSystem ℕ) (max_file_size : ℤ) (auto_delete : Bool) :
    (∀ sizes : ℕ → ℕ, (∀ n, 0 < sizes n) →
        Drains sizes (start id max_file_size auto_delete (partIds fs) fs).1
          (start id max_file_size auto_delete (partIds fs) fs).2 (allBytes fs)) ↔
      Contiguous fs ∧ LastWhole fs := by
  by_cases hall : ∀ k, fs.find k = none
  · obtain ⟨s, fs', hstart, C, hahead⟩ := start_absent hall max_file_size auto_delete
    have hbytes : allBytes fs = [] := by
      have hnil : presentIds fs = [] :=
        List.eq_nil_iff_forall_not_mem.mpr fun k hk => mem_presentIds.mp hk (hall k)
      rw [allBytes, hnil]
      rfl
    refine iff_of_true (fun sizes hsizes => ?_) ⟨fun i j k hi => absurd (hall i) hi, fun k f hf => ?_⟩
    · rw [hstart, hbytes, ← hahead]
      exact C.drains hsizes
    · rw [hall k] at hf
      cases hf
  · obtain ⟨i, hi⟩ := not_forall.mp hall
    obtain ⟨s, fs', f, hstart, O⟩ := start_present hi max_file_size auto_delete
    rw [hstart]
    have hone : ∀ _ : ℕ, 0 < 1 := fun _ => Nat.one_pos
    by_cases hcontiguous : Contiguous fs
    · have C := O.complete hcontiguous
      constructor
      · intro h
        have heq := (C.drains hone).unique (h (fun _ => 1) hone)
        exact ⟨hcontiguous, O.lastWhole_of_ahead hcontiguous heq⟩
      · rintro ⟨-, hlast⟩ sizes hsizes
        rw [← O.ahead_of_lastWhole hcontiguous hlast]
        exact C.drains hsizes
    · exact iff_of_false (fun h => (O.gap hcontiguous).not_drains (h (fun _ => 1) hone))
        fun h => hcontiguous h.1

end Opening

end CentreonBroker.File
