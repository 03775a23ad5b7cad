import CentreonBroker.File.Reopen

/-!
# The compression layer over a splitted file

Each buffer is compressed and written as its size, on four bytes, and what `zlib`
makes of it. The reader takes what the file gives in chunks of `BUFSIZ` bytes, and
cuts buffers out of them. A size that makes no sense, or bytes that `zlib` refuses,
cost it one byte, after which it tries again.
-/

namespace CentreonBroker.Compression

open Bytes File

/-- `compression::zlib`. `uncompress` gives nothing when it throws. -/
class Zlib where
  compress : Bytes → Bytes
  uncompress : Bytes → Bytes

/-- The members of `compression::stream`, over a splitter and what the disk has. -/
structure Stream where
  splitter : Splitter
  fs : FileSystem Nat
  rbuffer : Bytes
  shutdown : Bool

/-- `BUFSIZ`, the most that `file::stream::read` gives at once. -/
def bufsiz : Nat := 8192

theorem bufsiz_ne_zero : bufsiz ≠ 0 := by decide

def max_data_size : Nat := 100000000

/-- How a read ends: some data, none (`exceptions::interrupt`), or `exceptions::shutdown`. -/
inductive Result (β : Type) where
  | data (b : β)
  | null
  | shutdown

/-- `_get_data`, and whether it returns, rather than to throw the interruption. -/
def getData (size : Nat) (c : Stream) : Bool × Stream :=
  if c.rbuffer.length < size then
    match _h : File.read id bufsiz c.splitter c.fs with
    | (.bytes b, s, fs) =>
      getData size { c with splitter := s, fs := fs, rbuffer := c.rbuffer ++ b }
    | (.shutdown, s, fs) => (true, { c with splitter := s, fs := fs, shutdown := true })
    | (.missing, s, fs) => (false, { c with splitter := s, fs := fs })
    | (.idle, s, fs) => (false, { c with splitter := s, fs := fs })
  else (true, c)
termination_by size - c.rbuffer.length
decreasing_by
  have hb := List.length_pos_iff.mpr ((readable_read bufsiz c.splitter c.fs).2 b (by rw [_h]))
  rw [List.length_append]
  omega

/-- All the bytes the reader can get to. -/
def Stream.left (c : Stream) : Nat := c.rbuffer.length + readable c.splitter c.fs

theorem left_getData (size : Nat) (c : Stream) : (getData size c).2.left ≤ c.left := by
  induction hn : size - c.rbuffer.length using Nat.strongRecOn generalizing c with
  | ind n ih =>
    obtain ⟨hleft, hne⟩ := readable_read bufsiz c.splitter c.fs
    rw [getData]
    split
    · split
      · rename_i b s fs hr
        rw [hr] at hleft hne
        have hb := List.length_pos_iff.mpr (hne b rfl)
        have hsum : (c.rbuffer ++ b).length = c.rbuffer.length + b.length := List.length_append
        dsimp only [ReadStatus.data] at hleft
        refine Nat.le_trans (ih _ ?_ { c with splitter := s, fs := fs, rbuffer := c.rbuffer ++ b }
          rfl) ?_
        · dsimp only
          omega
        · unfold Stream.left
          dsimp only
          omega
      all_goals
        rename_i s fs hr
        rw [hr] at hleft
        exact Nat.add_le_add_left (Nat.le_trans (Nat.le_add_right _ _) hleft) _
    · exact Nat.le_refl _

theorem length_getData (size : Nat) (c : Stream) :
    c.rbuffer.length ≤ (getData size c).2.rbuffer.length := by
  induction hn : size - c.rbuffer.length using Nat.strongRecOn generalizing c with
  | ind n ih =>
    rw [getData]
    split
    · split
      · rename_i b s fs hr
        have hb := List.length_pos_iff.mpr
          ((readable_read bufsiz c.splitter c.fs).2 b (by rw [hr]))
        have hsum : (c.rbuffer ++ b).length = c.rbuffer.length + b.length := List.length_append
        refine Nat.le_trans ?_ (ih (size - (c.rbuffer ++ b).length) (by omega)
          { c with splitter := s, fs := fs, rbuffer := c.rbuffer ++ b } rfl)
        dsimp only
        omega
      all_goals exact Nat.le_refl _
    · exact Nat.le_refl _

/-- `_rbuffer.pop`. -/
def Stream.pop (c : Stream) (n : Nat) : Stream := { c with rbuffer := c.rbuffer.drop n }

variable {c : Stream}

theorem left_pop {n : Nat} (hn : 0 < n) (h : n ≤ c.rbuffer.length) :
    (c.pop n).left < c.left := by
  unfold Stream.left Stream.pop
  dsimp only
  rw [List.length_drop]
  omega

variable [Zlib]

/--
`read`. `size` is an `int` that four bytes are put in: past its range it is
negative, and out of bounds either way.
-/
def Stream.read (c : Stream) : Result Bytes × Stream :=
  match _h₁ : getData 4 c with
  | (false, c₁) => (.null, c₁)
  | (true, c₁) =>
    if _h₂ : c₁.rbuffer.length < 4 then (.shutdown, { c₁ with shutdown := true })
    else
      let size := (ntohl c₁.rbuffer).toNat
      if size = 0 ∨ max_data_size < size then (c₁.pop 1).read
      else
        match _h₃ : getData (size + 4) c₁ with
        | (false, c₂) => (.null, c₂)
        | (true, c₂) =>
          let r :=
            if size + 4 ≤ c₂.rbuffer.length then
              Zlib.uncompress ((c₂.rbuffer.drop 4).take size)
            else []
          if r = [] then (c₂.pop 1).read else (.data r, c₂.pop (size + 4))
termination_by c.left
decreasing_by
  · have h := left_getData 4 c
    rw [_h₁] at h
    exact Nat.lt_of_lt_of_le (left_pop Nat.zero_lt_one (by omega)) h
  · have h := left_getData 4 c
    have h' := left_getData (size + 4) c₁
    have hlen := length_getData (size + 4) c₁
    rw [_h₁] at h
    rw [_h₃] at h' hlen
    exact Nat.lt_of_lt_of_le (left_pop Nat.zero_lt_one (by dsimp only at hlen; omega))
      (Nat.le_trans h' h)

variable {b : Bytes}

/-- A read that gives data took it off what was left. -/
theorem Stream.left_read {c' : Stream} (hr : c.read = (.data b, c')) :
    c'.left < c.left := by
  induction hn : c.left using Nat.strongRecOn generalizing c with
  | ind n ih =>
    subst hn
    have hl₁ := left_getData 4 c
    rw [Stream.read] at hr
    split at hr
    · cases hr
    rename_i c₁ hg₁
    rw [hg₁] at hl₁
    dsimp only at hl₁
    by_cases hlt : c₁.rbuffer.length < 4
    · rw [dif_pos hlt] at hr; cases hr
    rw [dif_neg hlt] at hr
    dsimp only at hr
    by_cases hbad : (ntohl c₁.rbuffer).toNat = 0 ∨ max_data_size < (ntohl c₁.rbuffer).toNat
    · have hp := left_pop (c := c₁) Nat.zero_lt_one (by omega)
      have hle := Nat.lt_of_lt_of_le hp hl₁
      rw [if_pos hbad] at hr
      exact Nat.lt_trans (ih _ hle hr rfl) hle
    rw [if_neg hbad] at hr
    have hl₂ := left_getData ((ntohl c₁.rbuffer).toNat + 4) c₁
    have hlen := length_getData ((ntohl c₁.rbuffer).toNat + 4) c₁
    split at hr
    · cases hr
    rename_i c₂ hg₂
    rw [hg₂] at hl₂ hlen
    dsimp only at hl₂ hlen hr
    have hp := left_pop (c := c₂) Nat.zero_lt_one (by omega)
    have hle := Nat.lt_of_lt_of_le hp (Nat.le_trans hl₂ hl₁)
    by_cases hsize : (ntohl c₁.rbuffer).toNat + 4 ≤ c₂.rbuffer.length
    · rw [if_pos hsize] at hr
      split at hr
      · exact Nat.lt_trans (ih _ hle hr rfl) hle
      · obtain ⟨-, rfl⟩ := Prod.mk.inj hr
        exact Nat.lt_of_lt_of_le (left_pop (Nat.succ_pos _) hsize) (Nat.le_trans hl₂ hl₁)
    · rw [if_neg hsize, if_pos rfl] at hr
      exact Nat.lt_trans (ih _ hle hr rfl) hle

/-- A buffer as it is written: its size, and what `zlib` makes of it. -/
def frame (b : Bytes) : Bytes :=
  htonl (UInt32.ofNat (Zlib.compress b).length) ++ Zlib.compress b

/-- `write`, and `_flush` at once since there is no minimum size. Nothing when it throws. -/
def Stream.write (c : Stream) (b : Bytes) : Option Stream :=
  if c.shutdown then none
  else if max_data_size < b.length then none
  else if b = [] then some c
  else
    let (s, fs) := File.write id c.splitter c.fs (frame b)
    some { c with splitter := s, fs := fs }

/-! ## Over a splitter that keeps what it has -/

omit [Zlib]

/-- What the first part has left, with what is already in `_rbuffer`. -/
def Stream.ahead (c : Stream) (h : Nat) : Bytes :=
  c.rbuffer ++ (c.fs.content h).drop c.splitter.position

variable {later : List Nat} {h : Nat}

/-- Data that is all in the first part is brought without leaving it. -/
theorem getData_kept (size : Nat)
    (K : Kept c.splitter c.fs h later) (hle : size ≤ (c.ahead h).length) :
    ∃ c', getData size c = (true, c') ∧ Kept c'.splitter c'.fs h later ∧ c'.fs = c.fs ∧
      c'.shutdown = c.shutdown ∧ size ≤ c'.rbuffer.length ∧ c'.ahead h = c.ahead h := by
  induction hn : size - c.rbuffer.length using Nat.strongRecOn generalizing c with
  | ind n ih =>
    rw [getData]
    by_cases hlt : c.rbuffer.length < size
    · have hb : (c.fs.content h).drop c.splitter.position ≠ [] := by
        intro hnil
        rw [Stream.ahead, hnil, List.append_nil] at hle
        omega
      obtain ⟨b, s', hr, hne, K', -, hd⟩ := K.read_bytes bufsiz_ne_zero hb
      have hpos := List.length_pos_iff.mpr hne
      have hahead : Stream.ahead { c with splitter := s', rbuffer := c.rbuffer ++ b } h =
          c.ahead h := by
        rw [Stream.ahead, Stream.ahead, hd, List.append_assoc]
      rw [if_pos hlt, hr]
      dsimp only
      have hlen : (c.rbuffer ++ b).length = c.rbuffer.length + b.length := List.length_append
      obtain ⟨c', h1, h2, h3, h4, h5, h6⟩ := ih (size - (c.rbuffer ++ b).length) (by omega)
        (c := { c with splitter := s', rbuffer := c.rbuffer ++ b }) K' (by rw [hahead]; exact hle) rfl
      exact ⟨c', h1, h2, h3, h4, h5, h6.trans hahead⟩
    · rw [if_neg hlt]
      exact ⟨c, rfl, K, rfl, rfl, by omega, rfl⟩

variable [Zlib]

/-- A buffer that `compression::stream` takes, and that `zlib` gives back. -/
structure Packs (b : Bytes) : Prop where
  ne_nil : b ≠ []
  length_le : b.length ≤ max_data_size
  compress_pos : 0 < (Zlib.compress b).length
  compress_le : (Zlib.compress b).length ≤ max_data_size
  uncompress : Zlib.uncompress (Zlib.compress b) = b

theorem Packs.length_frame (_hb : Packs b) :
    (frame b).length = (Zlib.compress b).length + 4 := by
  rw [frame, List.length_append, length_htonl, Nat.add_comm]

/-- The size in front of a frame. -/
theorem Packs.ntohl_frame (hb : Packs b) (x : Bytes) :
    (ntohl (frame b ++ x)).toNat = (Zlib.compress b).length := by
  have h := hb.compress_le
  have hlt : max_data_size < UInt32.size := by decide
  rw [frame, List.append_assoc, ntohl_htonl]
  exact UInt32.toNat_ofNat_of_lt' (Nat.lt_of_le_of_lt h hlt)

/-- **A frame gives its buffer.** -/
theorem Stream.read_frame
    (K : Kept c.splitter c.fs h later) {x : Bytes} (hb : Packs b)
    (hc : c.ahead h = frame b ++ x) :
    ∃ c', c.read = (.data b, c') ∧ Kept c'.splitter c'.fs h later ∧ c'.fs = c.fs ∧
      c'.shutdown = c.shutdown ∧ c'.ahead h = x := by
  have hlen := hb.length_frame
  have hahead : (c.ahead h).length = (Zlib.compress b).length + 4 + x.length := by
    rw [hc, List.length_append, hlen]
  obtain ⟨c₁, hg₁, K₁, hfs₁, hs₁, hl₁, ha₁⟩ := getData_kept 4 K (by omega)
  -- the four bytes of the size are in the buffer
  have hsize : (ntohl c₁.rbuffer).toNat = (Zlib.compress b).length := by
    have htake : c₁.rbuffer.take 4 = (frame b ++ x).take 4 := by
      rw [← hc, ← ha₁, Stream.ahead, List.take_append_of_le_length hl₁]
    rw [ntohl, htake]
    exact hb.ntohl_frame x
  obtain ⟨c₂, hg₂, K₂, hfs₂, hs₂, hl₂, ha₂⟩ := getData_kept
    ((Zlib.compress b).length + 4) K₁ (by rw [ha₁]; omega)
  have hbuf : c₂.rbuffer.take ((Zlib.compress b).length + 4) = frame b := by
    have h1 := congrArg (List.take (frame b).length) (ha₂.trans (ha₁.trans hc))
    rw [List.take_left, Stream.ahead, hlen, List.take_append_of_le_length hl₂] at h1
    exact h1
  have hdata : (c₂.rbuffer.drop 4).take (Zlib.compress b).length = Zlib.compress b := by
    rw [List.take_drop, Nat.add_comm, hbuf, frame]
    exact List.drop_left' (length_htonl _)
  refine ⟨c₂.pop ((Zlib.compress b).length + 4), ?_, K₂, hfs₂.trans hfs₁, hs₂.trans hs₁, ?_⟩
  · have hpos := hb.compress_pos
    have hmax := hb.compress_le
    rw [Stream.read, hg₁]
    dsimp only
    rw [dif_neg (by omega), hsize, if_neg (by omega), hg₂]
    dsimp only
    rw [if_pos hl₂, hdata, hb.uncompress, if_neg hb.ne_nil]
  · have h1 := ha₂.trans (ha₁.trans hc)
    have h2 := congrArg (List.drop (frame b).length) h1
    rw [List.drop_left, Stream.ahead, hlen, List.drop_append_of_le_length hl₂] at h2
    exact h2

/-- With nothing left in the first part the read goes on in the next one. -/
theorem Stream.read_next {i : Nat}
    (K : Kept c.splitter c.fs h (i :: later)) (hc : c.ahead h = []) :
    ∃ c' : Stream, c.read = c'.read ∧ Kept c'.splitter c'.fs i later ∧ c'.shutdown = c.shutdown ∧
      c'.ahead i = body c.fs i ∧ body c'.fs = body c.fs := by
  obtain ⟨hrb, hd⟩ := List.append_eq_nil_iff.mp hc
  obtain ⟨s', fs', hr, K', hpos, hbody⟩ := K.read_next bufsiz_ne_zero hd
  refine ⟨{ c with splitter := s', fs := fs' }, ?_, K', rfl, ?_, hbody⟩
  · have hg : getData 4 c = getData 4 { c with splitter := s', fs := fs' } := by
      have hlt : c.rbuffer.length < 4 := by rw [hrb]; decide
      rw [getData, if_pos hlt, hr, getData, if_pos hlt]
    rw [Stream.read, hg, Stream.read]
  · rw [Stream.ahead, hrb, hpos, ← hbody]
    rfl

/-- With nothing left in the last part the read ends, and no part is left. -/
theorem Stream.read_shutdown (K : Kept c.splitter c.fs h [])
    (hc : c.ahead h = []) : ∃ c', c.read = (.shutdown, c') ∧ Parts c'.fs 0 [] := by
  obtain ⟨hrb, hd⟩ := List.append_eq_nil_iff.mp hc
  obtain ⟨s', fs', hr, hparts⟩ := K.read_shutdown bufsiz_ne_zero hd
  have hg : getData 4 c = (true, { c with splitter := s', fs := fs', shutdown := true }) := by
    rw [getData, if_pos (by rw [hrb]; decide), hr]
  refine ⟨{ c with splitter := s', fs := fs', shutdown := true }, ?_, hparts⟩
  rw [Stream.read, hg]
  dsimp only
  rw [dif_pos (by rw [hrb]; decide)]

end CentreonBroker.Compression
