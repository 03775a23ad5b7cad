import CentreonBroker.File.Fifo

/-!
# Closing a splitter and opening it again

A splitter keeps nothing of where it was reading but in memory. Closed and opened
again it starts from the beginning of the first part there is, so all of that
part is read again: `Kept.close` says what the disk has then, `start_kept` what is
read of it.

This needs the part being read to have its name. The reader removes that name
only when it goes to the next part, or with the shutdown, after which there is no
part left (`Kept.closeEmpty`).
-/

namespace CentreonBroker.File

open Bytes FileSystem

/-! ## The numbers of the parts -/

theorem scanIds_concat (vals : List Int) (val : Int) :
    scanIds (vals ++ [val]) =
      (if (scanIds vals).1.all (val < ·) then some val else (scanIds vals).1,
        if val > (scanIds vals).2 then val else (scanIds vals).2) := by
  rw [scanIds, List.foldl_append]
  rfl

/-- The scan finds the least number and the greatest. -/
theorem scanIds_spec (vals : List Int) (hpos : ∀ v ∈ vals, 0 ≤ v) (hne : vals ≠ []) :
    ∃ rid wid, scanIds vals = (some rid, wid) ∧ rid ∈ vals ∧ wid ∈ vals ∧
      ∀ v ∈ vals, rid ≤ v ∧ v ≤ wid := by
  induction vals using List.reverseRecOn with
  | nil => exact absurd rfl hne
  | append_singleton vals val ih =>
    have hval : 0 ≤ val := hpos val (by simp)
    rw [scanIds_concat]
    by_cases hv : vals = []
    · subst hv
      refine ⟨val, val, ?_, by simp, by simp, by simp⟩
      rw [show scanIds [] = (none, 0) from rfl]
      simp only [Option.all_none, if_true, Prod.mk.injEq, true_and]
      split <;> omega
    · obtain ⟨rid, wid, hs, hr, hw, hb⟩ := ih (fun v h => hpos v (by simp [h])) hv
      have hrw := (hb wid hw).1
      rw [hs]
      refine ⟨if val < rid then val else rid, if val > wid then val else wid, ?_, ?_, ?_, ?_⟩
      · simp only [Option.all_some, decide_eq_true_eq]
        split <;> rfl
      · split
        · simp
        · simp [hr]
      · split
        · simp
        · simp [hw]
      · intro v hm
        rcases List.mem_append.mp hm with hm | hm
        · have := hb v hm
          split <;> split <;> omega
        · obtain rfl := List.mem_singleton.mp hm
          split <;> split <;> omega

/-- The numbers of parts that follow one another from `lo` on. -/
theorem firstIds_eq {vals : List Int} {lo n : Nat}
    (h : ∀ v, v ∈ vals ↔ ∃ k : Nat, v = k ∧ lo ≤ k ∧ k < lo + (n + 1)) :
    firstIds vals = (lo, lo + n) := by
  have hlo : (lo : Int) ∈ vals := (h _).mpr ⟨lo, rfl, Nat.le_refl _, by omega⟩
  have hhi : ((lo + n : Nat) : Int) ∈ vals := (h _).mpr ⟨lo + n, rfl, by omega, by omega⟩
  have hpos : ∀ v ∈ vals, 0 ≤ v := by
    intro v hv
    obtain ⟨k, rfl, -⟩ := (h v).mp hv
    exact Int.natCast_nonneg k
  obtain ⟨rid, wid, hs, hr, hw, hb⟩ := scanIds_spec vals hpos (List.ne_nil_of_mem hlo)
  obtain ⟨k, rfl, hk⟩ := (h rid).mp hr
  obtain ⟨k', rfl, hk'⟩ := (h wid).mp hw
  have h1 := (hb _ hlo).1
  have h2 := (hb _ hhi).2
  obtain rfl : k = lo := by omega
  obtain rfl : k' = k + n := by omega
  unfold firstIds
  rw [hs]
  rfl

/-! ## The parts on the disk -/

/-- The numbers of the parts that exist, as the listing of the directory gives them. -/
def partIds (fs : FileSystem Nat) : List Int := fs.dir.map fun e => (e.1 : Int)

theorem mem_partIds (fs : FileSystem Nat) (v : Int) :
    v ∈ partIds fs ↔ ∃ k : Nat, v = k ∧ fs.find k ≠ none := by
  unfold partIds FileSystem.find
  induction fs.dir with
  | nil => simp
  | cons e l ih =>
    obtain ⟨n, i⟩ := e
    rw [List.map_cons, List.mem_cons, ih]
    constructor
    · rintro (rfl | ⟨k, rfl, hk⟩)
      · exact ⟨n, rfl, by simp⟩
      · refine ⟨k, rfl, ?_⟩
        rw [List.lookup_cons]
        split
        · exact Option.some_ne_none _
        · exact hk
    · rintro ⟨k, rfl, hk⟩
      rw [List.lookup_cons] at hk
      by_cases hkn : k = n
      · exact Or.inl (by rw [hkn])
      · rw [beq_false_of_ne hkn] at hk
        exact Or.inr ⟨k, rfl, hk⟩

/-- A closed splitter: its parts follow one another from `lo` on, in the inodes `is`. -/
structure Parts (fs : FileSystem Nat) (lo : Nat) (is : List Nat) : Prop where
  lawful : fs.Lawful
  named : Named id fs lo is
  only : ∀ k, k < lo ∨ lo + is.length ≤ k → fs.find k = none
  size : ∀ i ∈ is, partHeaderSize ≤ (fs.content i).length ∧ i < fs.fresh

/-- An open splitter that removes what it has read, and whose first part has its name. -/
structure Kept (s : Splitter) (fs : FileSystem Nat) (h : Nat) (later : List Nat) : Prop
    extends Layout id s fs h later where
  auto_delete : s.auto_delete = true
  find_head : fs.find s.rid = some h
  below : ∀ k < s.rid, fs.find k = none

variable {later : List Nat} {h : Nat}

/-- The last of the parts that follow one another. -/
theorem Named.last {fs : FileSystem Nat} {k : Nat}
    (hn : Named id fs k (h :: later)) : fs.find (k + later.length) = some (later.getLastD h) := by
  induction later generalizing k h with
  | nil => exact hn.1
  | cons a later ih =>
    rw [List.getLastD_cons, List.length_cons, ← ih hn.2]
    congr 1
    omega

variable {s : Splitter}

/-- **Closing forgets the position**: the parts stay, the first one whole. -/
theorem Kept.close {fs : FileSystem Nat}
    (K : Kept s fs h later) : Parts fs s.rid (h :: later) where
  lawful := K.lawful
  named := ⟨K.find_head, K.named⟩
  only := by
    intro k hk
    have := K.wid_eq
    rw [List.length_cons] at hk
    rcases hk with hk | hk
    · exact K.below k hk
    · exact K.above k (by omega)
  size := K.size

theorem Parts.mem_partIds {fs : FileSystem Nat} {lo : Nat} {is : List Nat} (P : Parts fs lo is)
    (v : Int) : v ∈ partIds fs ↔ ∃ k : Nat, v = k ∧ lo ≤ k ∧ k < lo + is.length := by
  have hsome : ∀ (is : List Nat) (lo : Nat), Named id fs lo is →
      ∀ k, lo ≤ k → k < lo + is.length → fs.find k ≠ none := by
    intro is
    induction is with
    | nil =>
      intro lo _ k h1 h2
      rw [List.length_nil] at h2
      omega
    | cons a is ih =>
      intro lo hn k h1 h2
      rw [List.length_cons] at h2
      by_cases hk : k = lo
      · rw [hk, show fs.find lo = some a from hn.1]
        exact Option.some_ne_none a
      · exact ih (lo + 1) hn.2 k (by omega) (by omega)
  rw [File.mem_partIds]
  constructor
  · rintro ⟨k, rfl, hk⟩
    refine ⟨k, rfl, ?_⟩
    by_contra hout
    exact hk (P.only k (by omega))
  · rintro ⟨k, rfl, h1, h2⟩
    exact ⟨k, rfl, hsome is lo P.named k h1 h2⟩

/-- **What is read of a splitter that is opened again**: all its parts, from their beginning. -/
theorem start_kept {fs : FileSystem Nat} {lo : Nat} {is : List Nat} (P : Parts fs lo is)
    (max_file_size : Int) :
    ∃ s fs' h later, start id max_file_size true (partIds fs) fs = (s, fs') ∧
      Kept s fs' h later ∧ s.rfile = none ∧
      unread s fs' h later = is.flatMap (body fs) ∧
      ∀ i ∈ h :: later, body fs' i = [] ∨ ∃ j ∈ is, body fs' i = body fs j := by
  cases is with
  | nil =>
    have hnone : ∀ k, fs.find k = none := fun k => P.only k (by rw [List.length_nil]; omega)
    have hids : partIds fs = [] := by
      refine List.eq_nil_iff_forall_not_mem.mpr fun v hv => ?_
      obtain ⟨k, -, hk⟩ := (File.mem_partIds fs v).mp hv
      exact hk (hnone k)
    obtain ⟨h1, h2, h3⟩ := openAppend_new (hnone 0)
    have hself := find_openAppend_self fs 0
    rw [h1] at hself
    generalize hfs : (fs.openAppend 0).2.append fs.fresh partHeader = fs'
    have hcontent : fs'.content fs.fresh = partHeader := by
      rw [← hfs, content_append_self, h2]
      rfl
    have hstart : start id max_file_size true (partIds fs) fs =
        ({ auto_delete := true, max_file_size := maxFileSize max_file_size, rfile := none,
           rid := 0, roffset := 0, wfile := some fs.fresh, wid := 0,
           woffset := partHeaderSize }, fs') := by
      rw [hids, ← hfs]
      exact openWriteFile_new (Or.inl rfl) (hnone 0)
    refine ⟨_, fs', fs.fresh, [], hstart, ?_, rfl, ?_, ?_⟩
    · exact
        { lawful := by rw [← hfs]; exact (P.lawful.openAppend _).append _ _
          wid_eq := rfl
          named := trivial
          above := fun k hk => by
            rw [← hfs, find_append]
            exact (find_openAppend_of_ne fs (Nat.ne_of_gt hk)).trans (hnone k)
          wfile := rfl
          woffset := by
            show (fs'.content fs.fresh).length = partHeaderSize
            rw [hcontent]
            rfl
          rfile := Or.inl rfl
          head := Or.inl (by rw [← hfs]; exact hself)
          position := fun hr => by cases hr
          size := fun i hi => by
            rw [List.mem_singleton.mp hi, hcontent, ← hfs, fresh_append, h3]
            exact ⟨Nat.le_refl _, Nat.lt_succ_self _⟩
          auto_delete := rfl
          find_head := by rw [← hfs]; exact hself
          below := fun k hk => absurd hk (Nat.not_lt_zero k) }
    · show (fs'.content fs.fresh).drop partHeaderSize ++ [] = []
      rw [hcontent]
      rfl
    · intro i hi
      rw [List.mem_singleton.mp hi, body, hcontent]
      exact Or.inl rfl
  | cons h later =>
    have hids : firstIds (partIds fs) = (lo, lo + later.length) := firstIds_eq P.mem_partIds
    have hlast : fs.find (lo + later.length) = some (later.getLastD h) := P.named.last
    have hmem : later.getLastD h ∈ h :: later := List.getLastD_mem_cons
    have hstart : start id max_file_size true (partIds fs) fs =
        ({ auto_delete := true, max_file_size := maxFileSize max_file_size, rfile := none,
           rid := lo, roffset := 0, wfile := some (later.getLastD h), wid := lo + later.length,
           woffset := (fs.content (later.getLastD h)).length }, fs) := by
      rw [start, hids]
      exact openWriteFile_old (Or.inl rfl) hlast (P.size _ hmem).1
    refine ⟨_, fs, h, later, hstart, ?_, rfl, rfl, fun i hi => Or.inr ⟨i, hi, rfl⟩⟩
    exact
      { lawful := P.lawful
        wid_eq := rfl
        named := P.named.2
        above := fun k hk => P.only k (Or.inr (by rw [List.length_cons]; exact hk))
        wfile := rfl
        woffset := rfl
        rfile := Or.inl rfl
        head := Or.inl P.named.1
        position := fun hr => by cases hr
        size := P.size
        auto_delete := rfl
        find_head := P.named.1
        below := fun k hk => P.only k (Or.inl hk) }

/-! ## Writing and reading -/

theorem Kept.append {fs : FileSystem Nat}
    (K : Kept s fs h later) (buffer : Bytes) :
    ∃ s' fs', fwrite s fs buffer = (s', fs') ∧ Kept s' fs' h later ∧
      unread s' fs' h later = unread s fs h later ++ buffer ∧
      s'.rfile = s.rfile ∧ s'.position = s.position ∧
      (∃ x, fs'.content h = fs.content h ++ x) ∧
      ∀ i ∈ h :: later, body fs' i = body fs i ∨ body fs' i = body fs i ++ buffer := by
  obtain ⟨L, hun⟩ := K.toLayout.append Function.injective_id buffer
  rw [fwrite_eq K.wfile] at L hun
  refine ⟨_, _, fwrite_eq K.wfile fs buffer, ⟨L, K.auto_delete, K.find_head, K.below⟩, hun, rfl,
    rfl, ?_, fun i hi => ?_⟩
  · by_cases hw : h = later.getLastD h
    · exact ⟨buffer, by rw [← hw, content_append_self]⟩
    · exact ⟨[], by rw [content_append_of_ne fs hw, List.append_nil]⟩
  · by_cases hw : i = later.getLastD h
    · refine Or.inr ?_
      rw [hw, body, content_append_self, body]
      exact List.drop_append_of_le_length (K.sizes _ (hw ▸ hi))
    · exact Or.inl (by rw [body, content_append_of_ne fs hw, body])

theorem Kept.rollover {fs : FileSystem Nat}
    (K : Kept s fs h later) :
    ∃ s' fs', openWriteFile id { s with wid := s.wid + 1 } fs = (s', fs') ∧
      Kept s' fs' h (later ++ [fs.fresh]) ∧
      unread s' fs' h (later ++ [fs.fresh]) = unread s fs h later ∧
      s'.rfile = s.rfile ∧ s'.position = s.position ∧ fs'.content h = fs.content h ∧
      ∀ i ∈ h :: (later ++ [fs.fresh]), body fs' i = [] ∨ i ∈ h :: later ∧ body fs' i = body fs i := by
  have hwid := K.wid_eq
  have hrid : s.wid + 1 ≠ s.rid := by omega
  have hnone : fs.find (s.wid + 1) = none := K.above _ (Nat.lt_succ_self _)
  obtain ⟨s', fs', ho, L, hun⟩ := K.toLayout.rollover Function.injective_id
  have ho' : openWriteFile id { s with wid := s.wid + 1 } fs =
      ({ s with wid := s.wid + 1, wfile := some fs.fresh, woffset := partHeaderSize },
        (fs.openAppend (s.wid + 1)).2.append fs.fresh partHeader) :=
    openWriteFile_new (Or.inr hrid) hnone
  obtain ⟨hs, hfs⟩ := Prod.mk.inj (ho.symm.trans ho')
  have hfind : ∀ k, k ≠ s.wid + 1 → fs'.find k = fs.find k := fun k hk => by
    rw [hfs, find_append]
    exact find_openAppend_of_ne fs hk
  have hcontent : ∀ i ∈ h :: later, fs'.content i = fs.content i := fun i hi => by
    have hne := Nat.ne_of_lt (K.size i hi).2
    rw [hfs, content_append_of_ne _ hne]
    exact content_openAppend_of_ne fs hne
  refine ⟨s', fs', ho, ?_, hun, by rw [hs], by rw [hs]; rfl, hcontent h List.mem_cons_self,
    fun i hi => ?_⟩
  · refine ⟨L, ?_, ?_, ?_⟩
    · rw [hs]; exact K.auto_delete
    · rw [hs]; exact (hfind _ (Ne.symm hrid)).trans K.find_head
    · rw [hs]; intro k hk
      exact (hfind k (by dsimp only at hk; omega)).trans (K.below k hk)
  · by_cases hi' : i ∈ h :: later
    · exact Or.inr ⟨hi', by rw [body, hcontent i hi', body]⟩
    · have : i = fs.fresh := by
        rw [← List.cons_append] at hi
        exact List.mem_singleton.mp ((List.mem_append.mp hi).resolve_left hi')
      refine Or.inl ?_
      rw [this, body, hfs, content_append_self,
        (openAppend_new hnone).2.1]
      rfl

/-- What a write does to the parts: one of them, or a new one, gets the buffer at its end. -/
theorem write_kept {fs : FileSystem Nat}
    (K : Kept s fs h later) (buffer : Bytes) :
    ∃ s' fs' later', write id s fs buffer = (s', fs') ∧ Kept s' fs' h later' ∧
      unread s' fs' h later' = unread s fs h later ++ buffer ∧
      s'.rfile = s.rfile ∧ s'.position = s.position ∧
      (∃ x, fs'.content h = fs.content h ++ x) ∧
      ∀ p : Bytes → Prop, p [] → (∀ b, p b → p (b ++ buffer)) →
        (∀ i ∈ h :: later, p (body fs i)) → ∀ i ∈ h :: later', p (body fs' i) := by
  have hw : ¬ s.wfile.isNone = true := by rw [K.wfile]; exact Bool.false_ne_true
  unfold write
  rw [if_neg hw]
  dsimp only
  by_cases hfull : s.max_file_size < s.woffset + buffer.length
  · obtain ⟨s₁, fs₁, ho, K₁, hun₁, hr₁, hp₁, hc₁, hb₁⟩ := K.rollover
    obtain ⟨s₂, fs₂, ha, K₂, hun₂, hr₂, hp₂, ⟨x, hc₂⟩, hb₂⟩ := K₁.append buffer
    rw [if_pos hfull, ho]
    refine ⟨s₂, fs₂, later ++ [fs.fresh], ha, K₂, by rw [hun₂, hun₁], hr₂.trans hr₁,
      hp₂.trans hp₁, ⟨x, by rw [hc₂, hc₁]⟩, ?_⟩
    intro p hnil hadd hp i hi
    have hold : p (body fs₁ i) := by
      rcases hb₁ i hi with he | ⟨hi', he⟩
      · rw [he]; exact hnil
      · rw [he]; exact hp i hi'
    rcases hb₂ i hi with he | he
    · rw [he]; exact hold
    · rw [he]; exact hadd _ hold
  · obtain ⟨s₂, fs₂, ha, K₂, hun₂, hr₂, hp₂, hc₂, hb₂⟩ := K.append buffer
    rw [if_neg hfull]
    refine ⟨s₂, fs₂, later, ha, K₂, hun₂, hr₂, hp₂, hc₂, ?_⟩
    intro p _ hadd hp i hi
    rcases hb₂ i hi with he | he
    · rw [he]; exact hp i hi
    · rw [he]; exact hadd _ (hp i hi)

theorem auto_delete_openReadFile (s : Splitter) (fs : FileSystem Nat) :
    (openReadFile id s fs).auto_delete = s.auto_delete := by
  unfold openReadFile
  split
  · rfl
  · split <;> rfl

/-- A part that was just opened is read after its header. -/
theorem position_openReadFile (s : Splitter) (fs : FileSystem Nat) :
    (openReadFile id s fs).position = partHeaderSize := by
  unfold openReadFile Splitter.position
  split
  · exact ite_self _
  · split <;> rfl

theorem Kept.openRead {fs : FileSystem Nat}
    (K : Kept s fs h later) : Kept (readFile id s fs) fs h later ∧
      (readFile id s fs).rfile = some h ∧ (readFile id s fs).roffset = s.position := by
  obtain ⟨L, -, hr⟩ := K.toLayout.openRead
  have hrid := (rid_readFile id s fs).1
  have hdel : (readFile id s fs).auto_delete = true := by
    rw [readFile]
    split
    · rw [auto_delete_openReadFile]; exact K.auto_delete
    · exact K.auto_delete
  have hpos : (readFile id s fs).position = s.position := by
    rw [readFile]
    split
    · rename_i hs
      rw [position_openReadFile, Splitter.position, Option.isNone_iff_eq_none.mp hs]
      rfl
    · rfl
  refine ⟨⟨L, hdel, hrid.symm ▸ K.find_head, hrid.symm ▸ K.below⟩, hr, ?_⟩
  rw [← hpos, Splitter.position, hr]
  rfl

variable {max_size : Nat}

/-- While there are bytes left in the first part, a read gives some of them. -/
theorem Kept.read_bytes (hm : max_size ≠ 0) {fs : FileSystem Nat}
    (K : Kept s fs h later)
    (hb : (fs.content h).drop s.position ≠ []) :
    ∃ b s', read id max_size s fs = (.bytes b, s', fs) ∧ b ≠ [] ∧ Kept s' fs h later ∧
      s'.rfile = some h ∧
      (fs.content h).drop s.position = b ++ (fs.content h).drop s'.position := by
  obtain ⟨K₁, hr, ho⟩ := K.openRead
  rw [← ho] at hb ⊢
  have htake : ((fs.content h).drop (readFile id s fs).roffset).take max_size ≠ [] := by
    intro he
    rcases List.take_eq_nil_iff.mp he with h0 | h0
    · exact hm h0
    · exact hb h0
  refine ⟨_, _, File.read_bytes hr htake, htake, ⟨K₁.toLayout.advance hr ?_, K₁.auto_delete,
    K₁.find_head, K₁.below⟩, hr, ?_⟩
  · have := (K₁.position hr).2
    rw [List.length_take, List.length_drop]
    omega
  · have hp : ∀ n, Splitter.position { readFile id s fs with roffset := n } = n := fun n => by
      rw [Splitter.position, hr]
      rfl
    rw [hp, ← List.drop_drop, List.length_take]
    generalize (fs.content h).drop (readFile id s fs).roffset = l
    rcases Nat.le_total max_size l.length with hle | hle
    · rw [Nat.min_eq_left hle, List.take_append_drop]
    · rw [Nat.min_eq_right hle, List.take_of_length_le hle, List.drop_length, List.append_nil]

/-- At the end of the first part its name goes, and the read goes on in the next one. -/
theorem Kept.read_next (hm : max_size ≠ 0) {fs : FileSystem Nat}
    {i : Nat} (K : Kept s fs h (i :: later))
    (hb : (fs.content h).drop s.position = []) :
    ∃ s' fs', read id max_size s fs = read id max_size s' fs' ∧ Kept s' fs' i later ∧
      s'.position = partHeaderSize ∧ body fs' = body fs := by
  obtain ⟨K₁, hr, ho⟩ := K.openRead
  obtain ⟨hrid, hwid⟩ := rid_readFile id s fs
  rw [← ho] at hb
  have hlt : (readFile id s fs).rid < (readFile id s fs).wid := by
    rw [K₁.wid_eq, List.length_cons]
    omega
  have hnext := read_end hr hm hb rfl
  obtain ⟨L₂, hun₂⟩ := K₁.toLayout.nextPart Function.injective_id hr _ rfl
  rw [if_pos hlt] at hnext
  rw [if_pos K₁.auto_delete] at hnext L₂ hun₂
  obtain ⟨hrid₂, hwid₂⟩ := rid_openReadFile id
    { readFile id s fs with rid := (readFile id s fs).rid + 1 }
    (fs.remove (id (readFile id s fs).rid))
  refine ⟨_, _, hnext, ⟨L₂, ?_, ?_, ?_⟩, ?_, rfl⟩
  · rw [auto_delete_openReadFile]; exact K₁.auto_delete
  · rw [hrid₂]
    show (fs.remove (readFile id s fs).rid).find ((readFile id s fs).rid + 1) = some i
    rw [find_remove_of_ne fs (Nat.succ_ne_self _)]
    exact K₁.named.1
  · intro k hk
    rw [hrid₂] at hk
    show (fs.remove (readFile id s fs).rid).find k = none
    by_cases hk' : k = (readFile id s fs).rid
    · rw [hk']; exact find_remove_self fs _
    · rw [find_remove_of_ne fs hk']
      exact K₁.below k (by dsimp only at hk; omega)
  · exact position_openReadFile _ _

/-- At the end of the last part its name goes too, and there is no part left. -/
theorem Kept.read_shutdown (hm : max_size ≠ 0)
    {fs : FileSystem Nat} (K : Kept s fs h [])
    (hb : (fs.content h).drop s.position = []) :
    ∃ s' fs', read id max_size s fs = (.shutdown, s', fs') ∧ Parts fs' 0 [] := by
  obtain ⟨K₁, hr, ho⟩ := K.openRead
  rw [← ho] at hb
  have hlt : ¬ (readFile id s fs).rid < (readFile id s fs).wid := by
    rw [K₁.wid_eq]
    exact Nat.lt_irrefl _
  have hend := read_end hr hm hb rfl
  rw [if_neg hlt, if_pos K₁.auto_delete] at hend
  refine ⟨_, _, hend, K₁.lawful.remove _, trivial, fun k _ => ?_, fun i hi => by cases hi⟩
  show (fs.remove (readFile id s fs).rid).find k = none
  by_cases hk : k = (readFile id s fs).rid
  · rw [hk]; exact find_remove_self fs _
  · rw [find_remove_of_ne fs hk]
    have hwid := K₁.wid_eq
    rw [List.length_nil] at hwid
    rcases Nat.lt_or_ge k (readFile id s fs).rid with hlt | hge
    · exact K₁.below k hlt
    · exact K₁.above k (by omega)

/-! ## What a read leaves, whatever is on the disk -/

section Left

variable (wid : Nat) (wfile : Option Nat) (fs : FileSystem Nat)

/-- The part numbered `k`, as the reader opens it. -/
def readInode (k : Nat) : Option Nat :=
  if k = wid ∧ wfile.isSome then wfile else fs.find k

/-- The bytes of the part numbered `k`, if the reader gets there. -/
def partLeft (k : Nat) : Nat :=
  match readInode wid wfile fs k with
  | some f => (fs.content f).length - partHeaderSize
  | none => 0

/-- Those of `n` parts from `k` on. -/
def partsLeft : Nat → Nat → Nat
  | _, 0 => 0
  | k, n + 1 => partLeft wid wfile fs k + partsLeft (k + 1) n

/-- A part that is behind the reader does not count. -/
theorem partsLeft_congr {fs' : FileSystem Nat} (hc : fs'.content = fs.content) (n : Nat) :
    ∀ k, (∀ j, k ≤ j → fs'.find j = fs.find j) →
      partsLeft wid wfile fs' k n = partsLeft wid wfile fs k n := by
  induction n with
  | zero => intro _ _; rfl
  | succ n ih =>
    intro k hf
    rw [partsLeft, partsLeft, ih (k + 1) fun j hj => hf j (by omega), partLeft, partLeft, readInode,
      readInode, hc, hf k (Nat.le_refl k)]

end Left

/-- All the bytes the reader can get to. -/
def readable (s : Splitter) (fs : FileSystem Nat) : Nat :=
  (match s.rfile with
    | some f => (fs.content f).length - s.roffset
    | none => partLeft s.wid s.wfile fs s.rid) +
  partsLeft s.wid s.wfile fs (s.rid + 1) (s.wid - s.rid)

theorem openReadFile_eq (s : Splitter) (fs : FileSystem Nat) :
    openReadFile id s fs =
      { s with
        rfile := readInode s.wid s.wfile fs s.rid
        roffset :=
          if (readInode s.wid s.wfile fs s.rid).isSome then partHeaderSize else s.roffset } := by
  unfold openReadFile readInode
  by_cases hw : s.rid = s.wid ∧ s.wfile.isSome = true
  · rw [if_pos hw, if_pos hw, if_pos hw.2]
  · rw [if_neg hw, if_neg hw]
    dsimp only [id_eq]
    split
    · rename_i f hf; rw [hf]; rfl
    · rename_i hf; rw [hf]; rfl

theorem readable_openReadFile (s : Splitter) (fs : FileSystem Nat) :
    readable (openReadFile id s fs) fs =
      partLeft s.wid s.wfile fs s.rid +
        partsLeft s.wid s.wfile fs (s.rid + 1) (s.wid - s.rid) := by
  rw [openReadFile_eq, readable]
  dsimp only
  cases hf : readInode s.wid s.wfile fs s.rid with
  | some f => rw [partLeft, hf]; rfl
  | none => rfl

theorem readable_readFile (s : Splitter) (fs : FileSystem Nat) :
    readable (readFile id s fs) fs = readable s fs := by
  rw [readFile]
  split
  · rename_i hs
    rw [readable_openReadFile, readable, Option.isNone_iff_eq_none.mp hs]
  · rfl

theorem read_missing {fs : FileSystem Nat}
    (hf : (readFile id s fs).rfile = none) :
    read id max_size s fs = (.missing, readFile id s fs, fs) := by
  rw [read]
  dsimp only
  split
  · rfl
  · rename_i f hf'; rw [hf] at hf'; cases hf'

/-- **A read takes what it gives off what is left**, and that is not nothing. -/
theorem readable_read (max_size : Nat) (s : Splitter) (fs : FileSystem Nat) :
    readable (read id max_size s fs).2.1 (read id max_size s fs).2.2 +
        (read id max_size s fs).1.data.length ≤ readable s fs ∧
      ∀ b, (read id max_size s fs).1 = .bytes b → b ≠ [] := by
  induction hn : s.wid - s.rid using Nat.strongRecOn generalizing s fs with
  | ind n ih =>
    have hopen := readable_readFile s fs
    obtain ⟨hrid, hwid⟩ := rid_readFile id s fs
    cases hf : (readFile id s fs).rfile with
    | none =>
      rw [read_missing hf]
      exact ⟨Nat.le_of_eq hopen, fun b hb => by cases hb⟩
    | some f =>
      by_cases hm : max_size = 0
      · rw [hm, read_idle hf]
        exact ⟨Nat.le_of_eq hopen, fun b hb => by cases hb⟩
      by_cases hb : (fs.content f).drop (readFile id s fs).roffset = []
      · -- the end of the part: the bytes of the next ones are still there
        rw [read_end hf hm hb rfl]
        generalize hfs : (if (readFile id s fs).auto_delete = true then
          fs.remove (id (readFile id s fs).rid) else fs) = fs₁
        have hc : fs₁.content = fs.content := by rw [← hfs]; split <;> rfl
        have hfind : ∀ j, (readFile id s fs).rid + 1 ≤ j → fs₁.find j = fs.find j := by
          intro j hj
          rw [← hfs]
          split
          · exact find_remove_of_ne fs (Nat.ne_of_gt hj)
          · rfl
        have hparts := partsLeft_congr (readFile id s fs).wid (readFile id s fs).wfile fs hc
          ((readFile id s fs).wid - (readFile id s fs).rid) _ hfind
        by_cases hlt : (readFile id s fs).rid < (readFile id s fs).wid
        · rw [if_pos hlt]
          obtain ⟨h1, h2⟩ := ih ((readFile id s fs).wid - ((readFile id s fs).rid + 1)) (by omega)
            (openReadFile id { readFile id s fs with rid := (readFile id s fs).rid + 1 } fs₁) fs₁
            (by rw [(rid_openReadFile id _ _).1, (rid_openReadFile id _ _).2])
          refine ⟨Nat.le_trans h1 ?_, h2⟩
          rw [readable_openReadFile, ← hopen]
          obtain ⟨k, hk⟩ := Nat.exists_eq_add_of_lt hlt
          have hk' : (readFile id s fs).wid - (readFile id s fs).rid = k + 1 := by omega
          rw [hk', partsLeft, partsLeft] at hparts
          rw [readable, hk', partsLeft, ← hparts]
          have hk'' : (readFile id s fs).wid - ((readFile id s fs).rid + 1) = k := by omega
          dsimp only
          rw [hk'']
          exact Nat.le_add_left _ _
        · rw [if_neg hlt]
          refine ⟨?_, fun b hb => by cases hb⟩
          rw [← hopen, readable, readable, hf, hc, hparts]
          exact Nat.le_refl _
      · have htake : ((fs.content f).drop (readFile id s fs).roffset).take max_size ≠ [] := by
          intro he
          rcases List.take_eq_nil_iff.mp he with h0 | h0
          · exact hm h0
          · exact hb h0
        rw [File.read_bytes hf htake]
        refine ⟨?_, fun b hb' => by cases hb'; exact htake⟩
        rw [← hopen, readable, readable, hf]
        have hlen : (((fs.content f).drop (readFile id s fs).roffset).take max_size).length ≤
            (fs.content f).length - (readFile id s fs).roffset := by
          rw [List.length_take, List.length_drop]
          exact Nat.min_le_right _ _
        dsimp only [ReadStatus.data]
        omega

end CentreonBroker.File
