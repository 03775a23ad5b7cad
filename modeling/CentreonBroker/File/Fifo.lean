import CentreonBroker.File.Layout

/-!
# A splitter is a FIFO of bytes

`Holds` says which bytes a splitter will give next, whatever parts they are in.
A write adds its buffer to them, a read takes bytes off their front, and only a
splitter that holds nothing throws the shutdown: one step lemma each, and the
run follows.
-/

namespace CentreonBroker.File

open Bytes

variable {ν : Type} [DecidableEq ν] {path : Nat → ν}

/-- The bytes a splitter will give, in order. -/
def Holds (path : Nat → ν) (s : Splitter) (fs : FileSystem ν) (u : Bytes) : Prop :=
  ∃ h later, Layout path s fs h later ∧ unread s fs h later = u

/-- **A write adds its buffer to what is held.** -/
theorem write_holds (hpath : Function.Injective path) {s : Splitter} {fs : FileSystem ν}
    {u : Bytes} (hu : Holds path s fs u) (buffer : Bytes) :
    Holds path (write path s fs buffer).1 (write path s fs buffer).2 (u ++ buffer) := by
  obtain ⟨h, later, L, rfl⟩ := hu
  have hw : ¬ s.wfile.isNone = true := by rw [L.wfile]; exact Bool.false_ne_true
  unfold write
  rw [if_neg hw]
  dsimp only
  by_cases hfull : s.max_file_size < s.woffset + buffer.length
  · obtain ⟨s', fs', ho, L', hun⟩ := L.rollover hpath
    obtain ⟨L₂, hun₂⟩ := L'.append hpath buffer
    rw [if_pos hfull, ho]
    exact ⟨h, later ++ [fs.fresh], L₂, by rw [hun₂, hun]⟩
  · obtain ⟨L₂, hun₂⟩ := L.append hpath buffer
    rw [if_neg hfull]
    exact ⟨h, later, L₂, hun₂⟩

/-- What a read does to what is held. -/
def ReadSpec (path : Nat → ν) (max_size : Nat) (u : Bytes) (st : ReadStatus) (s' : Splitter)
    (fs' : FileSystem ν) : Prop :=
  match st with
  | .bytes b => b ≠ [] ∧ ∃ u', u = b ++ u' ∧ Holds path s' fs' u'
  | .missing => False
  | .idle => max_size = 0 ∧ Holds path s' fs' u
  | .shutdown => u = [] ∧ Holds path s' fs' []

/-! ## The three ways of a read in an open part -/

theorem read_bytes {max_size f : Nat} {s : Splitter} {fs : FileSystem ν}
    (hf : (readFile path s fs).rfile = some f)
    (hb : ((fs.content f).drop (readFile path s fs).roffset).take max_size ≠ []) :
    read path max_size s fs =
      (.bytes (((fs.content f).drop (readFile path s fs).roffset).take max_size),
        { readFile path s fs with
          roffset := (readFile path s fs).roffset +
            (((fs.content f).drop (readFile path s fs).roffset).take max_size).length },
        fs) := by
  rw [read]
  dsimp only
  split
  · rename_i hn; rw [hn] at hf; cases hf
  · rename_i f' hf'
    obtain rfl : f' = f := Option.some.inj (hf'.symm.trans hf)
    exact if_pos hb

theorem read_idle {f : Nat} {s : Splitter} {fs : FileSystem ν}
    (hf : (readFile path s fs).rfile = some f) :
    read path 0 s fs = (.idle, readFile path s fs, fs) := by
  rw [read]
  dsimp only
  split
  · rename_i hn; rw [hn] at hf; cases hf
  · rw [if_neg (not_not_intro List.take_zero), if_pos rfl]

/-- The end of the part: its name goes if it must, then the next part, or the shutdown. -/
theorem read_end {max_size f : Nat} {s : Splitter} {fs fs₁ : FileSystem ν}
    (hf : (readFile path s fs).rfile = some f) (hm : max_size ≠ 0)
    (hb : (fs.content f).drop (readFile path s fs).roffset = [])
    (hfs : fs₁ = if (readFile path s fs).auto_delete then
      fs.remove (path (readFile path s fs).rid) else fs) :
    read path max_size s fs =
      if (readFile path s fs).rid < (readFile path s fs).wid then
        read path max_size
          (openReadFile path { readFile path s fs with rid := (readFile path s fs).rid + 1 } fs₁) fs₁
      else (.shutdown, readFile path s fs, fs₁) := by
  rw [read]
  dsimp only
  split
  · rename_i hn; rw [hn] at hf; cases hf
  · rename_i f' hf'
    obtain rfl : f' = f := Option.some.inj (hf'.symm.trans hf)
    rw [hb, if_neg (not_not_intro List.take_nil), if_neg hm, ← hfs]
    split <;> rfl

/-- **A read takes bytes off the front of what is held**, and throws when there are none. -/
theorem read_holds (hpath : Function.Injective path) {max_size : Nat} {s : Splitter}
    {fs : FileSystem ν} {u : Bytes} (hu : Holds path s fs u) :
    ReadSpec path max_size u (read path max_size s fs).1 (read path max_size s fs).2.1
      (read path max_size s fs).2.2 := by
  induction hn : s.wid - s.rid using Nat.strongRecOn generalizing s fs u with
  | ind n ih =>
    obtain ⟨h, later, L, rfl⟩ := hu
    obtain ⟨L₁, hun, hr⟩ := L.openRead
    obtain ⟨hrid, hwid⟩ := rid_readFile path s fs
    have hpos : (readFile path s fs).position = (readFile path s fs).roffset := by
      rw [Splitter.position, hr]
      rfl
    rw [← hun]
    by_cases hz : max_size = 0
    · subst hz
      rw [read_idle hr]
      exact ⟨rfl, h, later, L₁, rfl⟩
    by_cases hb : (fs.content h).drop (readFile path s fs).roffset = []
    · -- the part being read is at its end
      have hu : unread (readFile path s fs) fs h later = later.flatMap (body fs) := by
        rw [unread, hpos, hb, List.nil_append]
      rw [read_end hr hz hb rfl, hu]
      cases later with
      | nil =>
        have hlt : ¬ (readFile path s fs).rid < (readFile path s fs).wid := by
          rw [L₁.wid_eq]
          exact Nat.lt_irrefl _
        rw [if_neg hlt]
        refine ⟨rfl, h, [], ?_, ?_⟩
        · dsimp only
          split
          · exact L₁.remove hpath hr
          · exact L₁
        · have hc : ∀ b : Bool, (if b = true then fs.remove (path (readFile path s fs).rid)
              else fs).content h = fs.content h := by
            intro b
            split <;> rfl
          rw [unread, hpos, hc, hb]
          rfl
      | cons i later =>
        have hlt : (readFile path s fs).rid < (readFile path s fs).wid := by
          rw [L₁.wid_eq, List.length_cons]
          omega
        obtain ⟨L₂, hun₂⟩ := L₁.nextPart hpath hr _ rfl
        rw [if_pos hlt, ← hun₂]
        refine ih _ ?_ ⟨i, later, L₂, rfl⟩ rfl
        rw [(rid_openReadFile path _ _).1, (rid_openReadFile path _ _).2]
        dsimp only
        omega
    · -- some bytes are left in it
      have htake : ((fs.content h).drop (readFile path s fs).roffset).take max_size ≠ [] := by
        intro he
        rcases List.take_eq_nil_iff.mp he with h0 | h0
        · exact hz h0
        · exact hb h0
      have hd : ((fs.content h).drop (readFile path s fs).roffset).drop
          (((fs.content h).drop (readFile path s fs).roffset).take max_size).length =
          ((fs.content h).drop (readFile path s fs).roffset).drop max_size := by
        rw [List.length_take]
        rcases Nat.le_total max_size ((fs.content h).drop (readFile path s fs).roffset).length
          with hle | hle
        · rw [Nat.min_eq_left hle]
        · rw [Nat.min_eq_right hle, List.drop_length, List.drop_of_length_le hle]
      have hlen : (readFile path s fs).roffset +
          (((fs.content h).drop (readFile path s fs).roffset).take max_size).length ≤
          (fs.content h).length := by
        have := (L₁.position hr).2
        rw [List.length_take, List.length_drop]
        omega
      rw [read_bytes hr htake]
      refine ⟨htake, _, ?_, h, later, L₁.advance hr hlen, rfl⟩
      have hp : ({ readFile path s fs with
          roffset := (readFile path s fs).roffset +
            (((fs.content h).drop (readFile path s fs).roffset).take max_size).length } :
          Splitter).position = (readFile path s fs).roffset +
            (((fs.content h).drop (readFile path s fs).roffset).take max_size).length := by
        rw [Splitter.position, hr]
        rfl
      rw [unread, unread, hpos, hp, ← List.drop_drop, hd, ← List.append_assoc,
        List.take_append_drop]

/-! ## Runs -/

/-- A splitter that finds no part on the disk holds nothing. -/
theorem start_holds (hpath : Function.Injective path) (max_file_size : Int) (auto_delete : Bool) :
    Holds path (start path max_file_size auto_delete [] FileSystem.empty).1
      (start path max_file_size auto_delete [] FileSystem.empty).2 [] := by
  have hself := FileSystem.find_openAppend_self (FileSystem.empty : FileSystem ν) (path 0)
  refine ⟨0, [], ?_, rfl⟩
  exact
    { lawful := (FileSystem.Lawful.empty.openAppend _).append _ _
      wid_eq := rfl
      named := trivial
      above := fun k hk => by
        have hne : path k ≠ path 0 := fun he => Nat.ne_of_gt hk (hpath he)
        exact FileSystem.find_openAppend_of_ne FileSystem.empty hne
      wfile := rfl
      woffset := rfl
      rfile := Or.inl rfl
      head := Or.inl hself
      position := nofun
      size := fun i hi => by
        rw [List.mem_singleton.mp hi]
        exact ⟨Nat.le_refl _, Nat.zero_lt_one⟩ }

inductive Op where
  | write (buffer : Bytes)
  | read (max_size : Nat)

/-- A splitter with all it was given and all it gave. -/
structure Run where
  s : Splitter
  fs : FileSystem Nat
  written : Bytes
  delivered : Bytes

/-- The bytes a read gave. -/
def ReadStatus.data : ReadStatus → Bytes
  | bytes b => b
  | _ => []

/-- The parts of a splitter, each named by its number. -/
def Run.step (r : Run) : Op → Run
  | .write buffer =>
    { s := (write id r.s r.fs buffer).1
      fs := (write id r.s r.fs buffer).2
      written := r.written ++ buffer
      delivered := r.delivered }
  | .read max_size =>
    { s := (read id max_size r.s r.fs).2.1
      fs := (read id max_size r.s r.fs).2.2
      written := r.written
      delivered := r.delivered ++ (read id max_size r.s r.fs).1.data }

/-- A splitter that found no part on the disk. -/
def Run.new (max_file_size : Int) (auto_delete : Bool) : Run where
  s := (start id max_file_size auto_delete [] FileSystem.empty).1
  fs := (start id max_file_size auto_delete [] FileSystem.empty).2
  written := []
  delivered := []

/-- Calls on such a splitter. -/
def run (max_file_size : Int) (auto_delete : Bool) (ops : List Op) : Run :=
  ops.foldl Run.step (Run.new max_file_size auto_delete)

/-- What was written is what was given, then what is held. -/
def Run.Tracks (r : Run) : Prop := ∃ u, Holds id r.s r.fs u ∧ r.written = r.delivered ++ u

theorem Run.Tracks.step {r : Run} (h : r.Tracks) (op : Op) : (r.step op).Tracks := by
  obtain ⟨u, hu, hw⟩ := h
  cases op with
  | write buffer =>
    refine ⟨u ++ buffer, write_holds Function.injective_id hu buffer, ?_⟩
    show r.written ++ buffer = r.delivered ++ (u ++ buffer)
    rw [hw, List.append_assoc]
  | read max_size =>
    have hr := @read_holds _ _ _ Function.injective_id max_size _ _ _ hu
    rw [Run.step, Run.Tracks]
    dsimp only
    cases hst : (read id max_size r.s r.fs).1 with
    | bytes b =>
      rw [hst] at hr
      obtain ⟨_, u', rfl, hu'⟩ := hr
      exact ⟨u', hu', by rw [hw, List.append_assoc]; rfl⟩
    | missing => rw [hst] at hr; exact hr.elim
    | idle => rw [hst] at hr; exact ⟨u, hr.2, by rw [hw]; simp [ReadStatus.data]⟩
    | shutdown =>
      rw [hst] at hr
      obtain ⟨rfl, hu'⟩ := hr
      exact ⟨[], hu', by rw [hw]; simp [ReadStatus.data]⟩

theorem run_tracks (max_file_size : Int) (auto_delete : Bool) (ops : List Op) :
    (run max_file_size auto_delete ops).Tracks :=
  List.foldlRecOn ops Run.step ⟨[], start_holds Function.injective_id max_file_size auto_delete, rfl⟩
    fun _ h op _ => h.step op

/-- With something to give a read gives some of it. -/
theorem Run.Tracks.progress {r : Run} (h : r.Tracks) {n : Nat} (hn : n ≠ 0)
    (hd : r.delivered ≠ r.written) :
    ∃ b, b ≠ [] ∧ (read id n r.s r.fs).1 = .bytes b ∧ r.delivered ++ b <+: r.written := by
  obtain ⟨u, hu, hw⟩ := h
  have hr := @read_holds _ _ _ Function.injective_id n _ _ _ hu
  cases hst : (read id n r.s r.fs).1 with
  | bytes b =>
    rw [hst] at hr
    obtain ⟨hb, u', rfl, _⟩ := hr
    exact ⟨b, hb, rfl, u', by rw [hw, List.append_assoc]⟩
  | missing => rw [hst] at hr; exact hr.elim
  | idle => rw [hst] at hr; exact absurd hr.1 hn
  | shutdown =>
    rw [hst] at hr
    obtain ⟨rfl, _⟩ := hr
    exact absurd (by rw [hw, List.append_nil]) hd

theorem Run.written_read (r : Run) (n : Nat) : (r.step (.read n)).written = r.written := rfl

/-- Reading on gives all that was written. -/
theorem Run.Tracks.drain {n : Nat} (hn : n ≠ 0) : ∀ {r : Run}, r.Tracks →
    ∃ k, ((List.replicate k (Op.read n)).foldl Run.step r).delivered = r.written := by
  intro r
  induction hm : r.written.length - r.delivered.length using Nat.strongRecOn generalizing r with
  | ind m ih =>
    intro h
    by_cases hd : r.delivered = r.written
    · exact ⟨0, hd⟩
    · obtain ⟨b, hb, hst, hpre⟩ := h.progress hn hd
      have hstep : (r.step (.read n)).delivered = r.delivered ++ b := by
        rw [Run.step, hst]
        rfl
      have hlen := hpre.length_le
      have hpos := List.length_pos_iff.mpr hb
      rw [List.length_append] at hlen
      obtain ⟨k, hk⟩ := ih _ (by
        rw [hstep, Run.written_read, List.length_append]
        omega) rfl (h.step (.read n))
      exact ⟨k + 1, hk⟩

/--
**A splitter is a FIFO of bytes.** Whatever the order of the calls, the maximum
size of a part and the deletion of the parts that are read, what the reads gave
is a prefix of what was written. The shutdown is thrown only when all of it was
given; until then a read gives some of what follows, and enough of them give
everything, what was written after a shutdown included.
-/
theorem splitter_fifo (max_file_size : Int) (auto_delete : Bool) (ops : List Op) :
    let r := run max_file_size auto_delete ops
    r.delivered <+: r.written ∧
      (∀ n, (read id n r.s r.fs).1 = .shutdown → r.delivered = r.written) ∧
      ∀ n, n ≠ 0 →
        (r.delivered ≠ r.written →
          ∃ b, b ≠ [] ∧ (read id n r.s r.fs).1 = .bytes b ∧ r.delivered ++ b <+: r.written) ∧
        ∃ k, (run max_file_size auto_delete (ops ++ List.replicate k (.read n))).delivered =
          r.written := by
  intro r
  have h : r.Tracks := run_tracks max_file_size auto_delete ops
  refine ⟨?_, fun n hst => ?_, fun n hn => ⟨h.progress hn, ?_⟩⟩
  · obtain ⟨u, _, hw⟩ := h
    exact ⟨u, hw.symm⟩
  · obtain ⟨u, hu, hw⟩ := h
    have hr := @read_holds _ _ _ Function.injective_id n _ _ _ hu
    rw [hst] at hr
    rw [hw, hr.1, List.append_nil]
  · obtain ⟨k, hk⟩ := h.drain hn
    refine ⟨k, ?_⟩
    rw [run, List.foldl_append]
    exact hk

/-- What is written after a shutdown is read too. -/
theorem splitter_fifo_after_shutdown :
    ∃ k, (run 0 true ([.write [1, 2], .read 8, .read 8, .write [3]] ++
      List.replicate k (.read 8))).delivered = [1, 2, 3] :=
  ((splitter_fifo 0 true [.write [1, 2], .read 8, .read 8, .write [3]]).2.2 8 (by decide)).2

end CentreonBroker.File
