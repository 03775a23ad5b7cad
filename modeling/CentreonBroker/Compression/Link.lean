import CentreonBroker.Lib.StoredZlib

/-!
# The compression layer over a link

A writer gathers what it is given until it has `_size` bytes, and sends it compressed
behind its size. The reader takes pieces of any size from the link, between timeouts, and
cuts these frames out of them; it skips one byte after another when a size makes no sense
or when `zlib` refuses.

The two functions of the zlib library are parameters.
-/

namespace CentreonBroker.Compression.Link

open Bytes StoredZlib

/--
`compress2`, by level, and `uncompress`, into a buffer of a given size: it fails when the
buffer is too small, and when its input is not complete.
-/
class Deflate where
  compress2 : Int → Bytes → Bytes
  uncompress : Nat → Bytes → Option Bytes
  compress2_ne_nil : ∀ (level : Int) (b : Bytes), compress2 level b ≠ []
  uncompress_compress2 : ∀ {cap : Nat} {b : Bytes} (level : Int), b.length ≤ cap →
    uncompress cap (compress2 level b) = some b
  uncompress_small : ∀ {cap : Nat} {b : Bytes} (level : Int), cap < b.length →
    uncompress cap (compress2 level b) = none
  uncompress_incomplete : ∀ {cap n : Nat} {b : Bytes} {level : Int},
    n < (compress2 level b).length → uncompress cap ((compress2 level b).take n) = none

/-- The library as it is at level 0, whatever the level. -/
@[reducible]
def stored : Deflate where
  compress2 _ b := store b
  uncompress cap data := (unstore data).filter (·.length ≤ cap)
  compress2_ne_nil _ _ := List.cons_ne_nil _ _
  uncompress_compress2 _ h := by
    rw [unstore_store]
    simpa using h
  uncompress_small _ h := by
    rw [unstore_store]
    simpa using h
  uncompress_incomplete h := by
    rw [unstore_take h]
    rfl

/-- `stream::max_data_size`. -/
def max_data_size : Nat := 100000000

/-! ## The buffers and the link -/

/-- The members of `compression::stream` that change. -/
structure Stream where
  rbuffer : Bytes
  shutdown : Bool
  wbuffer : Bytes

/-- The constructor. -/
def init : Stream := ⟨[], false, []⟩

/-- What one `read` of the substream gives: it returns true in the first three. -/
inductive Piece where
  | raw (b : Bytes)
  /-- An event that is not raw. -/
  | other
  | null
  | timeout

/-- How `_get_data` ends. The shutdown of the substream is caught. -/
inductive Fetch where
  | done
  | interrupt
  | timeout

/-- `_get_data`. After its last piece the substream throws `exceptions::shutdown`. -/
def getData (size : Nat) (s : Stream) : List Piece → Fetch × Stream × List Piece
  | [] => if size ≤ s.rbuffer.length then (.done, s, []) else (.done, { s with shutdown := true }, [])
  | p :: link =>
    if size ≤ s.rbuffer.length then (.done, s, p :: link)
    else
      match p with
      | .raw b => getData size { s with rbuffer := s.rbuffer ++ b } link
      | .other => getData size s link
      | .null => (.interrupt, s, link)
      | .timeout => (.timeout, s, link)

/-- The bytes that are still to come. -/
def received : List Piece → Bytes
  | [] => []
  | .raw b :: link => b ++ received link
  | _ :: link => received link

/-- All that a stream has, and what is to come. -/
def pending (s : Stream) (link : List Piece) : Bytes := s.rbuffer ++ received link

variable {s : Stream}

theorem getData_of_le {size : Nat} (h : size ≤ s.rbuffer.length)
    (link : List Piece) : getData size s link = (.done, s, link) := by
  cases link with
  | nil => exact if_pos h
  | cons p link =>
    cases p with
    | _ => exact if_pos h

theorem getData_nil {size : Nat} (h : s.rbuffer.length < size) :
    getData size s [] = (.done, { s with shutdown := true }, []) :=
  if_neg (Nat.not_le_of_lt h)

theorem getData_raw {size : Nat} (h : s.rbuffer.length < size) (b : Bytes)
    (link : List Piece) :
    getData size s (.raw b :: link) = getData size { s with rbuffer := s.rbuffer ++ b } link :=
  if_neg (Nat.not_le_of_lt h)

theorem getData_other {size : Nat} (h : s.rbuffer.length < size)
    (link : List Piece) : getData size s (.other :: link) = getData size s link :=
  if_neg (Nat.not_le_of_lt h)

theorem getData_null {size : Nat} (h : s.rbuffer.length < size)
    (link : List Piece) : getData size s (.null :: link) = (.interrupt, s, link) :=
  if_neg (Nat.not_le_of_lt h)

theorem getData_timeout {size : Nat} (h : s.rbuffer.length < size)
    (link : List Piece) : getData size s (.timeout :: link) = (.timeout, s, link) :=
  if_neg (Nat.not_le_of_lt h)

/-- Getting data loses none, and takes none out of the buffer. -/
theorem getData_spec (size : Nat) (s : Stream) (link : List Piece) :
    pending (getData size s link).2.1 (getData size s link).2.2 = pending s link ∧
    s.rbuffer.length ≤ (getData size s link).2.1.rbuffer.length := by
  induction link generalizing s with
  | nil =>
    rw [getData]
    split <;> exact ⟨rfl, Nat.le_refl _⟩
  | cons p link ih =>
    by_cases h : size ≤ s.rbuffer.length
    · rw [getData_of_le h]
      exact ⟨rfl, Nat.le_refl _⟩
    have hlt := Nat.lt_of_not_le h
    cases p with
    | raw b =>
      obtain ⟨h1, h2⟩ := ih { s with rbuffer := s.rbuffer ++ b }
      rw [getData_raw hlt]
      rw [List.length_append] at h2
      exact ⟨by rw [h1, pending, pending, received, List.append_assoc], by omega⟩
    | other =>
      rw [getData_other hlt]
      exact ih s
    | null =>
      rw [getData_null hlt]
      exact ⟨rfl, Nat.le_refl _⟩
    | timeout =>
      rw [getData_timeout hlt]
      exact ⟨rfl, Nat.le_refl _⟩

/-- `_rbuffer.pop`. -/
def pop (n : Nat) (s : Stream) : Stream := { s with rbuffer := s.rbuffer.drop n }

theorem pending_pop_lt {n : Nat} (hn : 0 < n) (h : n ≤ s.rbuffer.length)
    (link : List Piece) : (pending (pop n s) link).length < (pending s link).length := by
  unfold pending pop
  rw [List.length_append, List.length_append, List.length_drop]
  omega

/-- How `read` ends: true with some data, true with none, false, `exceptions::shutdown`. -/
inductive Outcome where
  | data (b : Bytes)
  | null
  | timeout
  | shutdown

/-! ## What is written -/

/-- What is done with the writing side. -/
inductive Op where
  | write (b : Bytes)
  | flush

/-- The bytes it was given: `write` throws those that are too many. -/
def written : List Op → Bytes
  | [] => []
  | .write b :: ops => (if max_data_size < b.length then [] else b) ++ written ops
  | .flush :: ops => written ops

/--
The buffers that are sent, a last flush included: what is gathered leaves when there is
enough of it, or on a flush.
-/
def batches (size : Nat) : List Op → Bytes → List Bytes
  | [], gathered => if gathered = [] then [] else [gathered]
  | .write b :: ops, gathered =>
    if max_data_size < b.length ∨ b = [] then batches size ops gathered
    else if size ≤ (gathered ++ b).length then (gathered ++ b) :: batches size ops []
    else batches size ops (gathered ++ b)
  | .flush :: ops, gathered =>
    if gathered = [] then batches size ops [] else gathered :: batches size ops []

theorem flatten_batches (size : Nat) (ops : List Op) (gathered : Bytes) :
    (batches size ops gathered).flatten = gathered ++ written ops := by
  induction ops generalizing gathered with
  | nil =>
    rw [batches]
    split
    · rename_i h; rw [h]; rfl
    · simp [written]
  | cons op ops ih =>
    cases op with
    | write b =>
      rw [batches, written]
      by_cases hmax : max_data_size < b.length
      · rw [if_pos (.inl hmax), if_pos hmax, ih]
        rfl
      by_cases hnil : b = []
      · rw [if_pos (.inr hnil), if_neg hmax, ih, hnil]
        rfl
      rw [if_neg (not_or.mpr ⟨hmax, hnil⟩), if_neg hmax]
      split
      · rw [List.flatten_cons, ih, List.append_assoc]
        rfl
      · rw [ih, List.append_assoc]
    | flush =>
      rw [batches, written]
      split
      · rename_i h; rw [ih, h]
      · rw [List.flatten_cons, ih]
        rfl

theorem batches_ne_nil (size : Nat) (ops : List Op) (gathered : Bytes) :
    ∀ b ∈ batches size ops gathered, b ≠ [] := by
  induction ops generalizing gathered with
  | nil =>
    intro b hb
    rw [batches] at hb
    split at hb
    · cases hb
    · rename_i h; rw [List.mem_singleton.mp hb]; exact h
  | cons op ops ih =>
    intro b' hb'
    cases op with
    | write b =>
      rw [batches] at hb'
      by_cases hbad : max_data_size < b.length ∨ b = []
      · rw [if_pos hbad] at hb'
        exact ih _ _ hb'
      rw [if_neg hbad] at hb'
      split at hb'
      · rcases List.mem_cons.mp hb' with h | h
        · rw [h]
          exact List.append_ne_nil_of_right_ne_nil _ fun hn => hbad (.inr hn)
        · exact ih _ _ h
      · exact ih _ _ hb'
    | flush =>
      rw [batches] at hb'
      split at hb'
      · exact ih _ _ hb'
      · rename_i hne
        rcases List.mem_cons.mp hb' with h | h
        · rw [h]; exact hne
        · exact ih _ _ h

/-! ## The code -/

variable [Deflate]

/-- `zlib::compress`: the size of the data, then what the library makes of them. -/
def compress (level : Int) (data : Bytes) : Bytes :=
  if data = [] then [0, 0, 0, 0]
  else
    let level := if level < -1 ∨ 9 < level then -1 else level
    htonl (UInt32.ofNat data.length) ++ Deflate.compress2 level data

/--
`zlib::uncompress`, empty when it throws `exceptions::corruption`. The expected size is a
signed `int` before it is a `ulong`: past the range of an `int` it is too big either way.
-/
def uncompress (data : Bytes) : Bytes :=
  if data.length < 4 then []
  else if data.length = 4 ∧ data ≠ [0, 0, 0, 0] then []
  else
    let len := max (ntohl data).toNat 1
    if max_data_size < len then [] else (Deflate.uncompress len (data.drop 4)).getD []

/-- A buffer as it is sent: the size of what is compressed, and what is compressed. -/
def frame (level : Int) (b : Bytes) : Bytes :=
  htonl (UInt32.ofNat (compress level b).length) ++ compress level b

/-- `_flush`, with what it sends. Nothing when it throws. -/
def flush (level : Int) (s : Stream) : Option (List Bytes × Stream) :=
  if s.shutdown then none
  else if s.wbuffer = [] then some ([], s)
  else some ([frame level s.wbuffer], { s with wbuffer := [] })

/-- `write` of a raw event. -/
def write (level : Int) (size : Nat) (b : Bytes) (s : Stream) : Option (List Bytes × Stream) :=
  if s.shutdown then none
  else if max_data_size < b.length then none
  else if b = [] then some ([], s)
  else
    let s := { s with wbuffer := s.wbuffer ++ b }
    if size ≤ s.wbuffer.length then flush level s else some ([], s)

/--
`read`, with the number of bytes it skipped. `size` is an `int` that four bytes are put in:
past its range it is negative, and out of bounds either way.
-/
def read (s : Stream) (link : List Piece) : (Outcome × Nat) × Stream × List Piece :=
  match _h₁ : getData 4 s link with
  | (.interrupt, s, link) => ((.null, 0), s, link)
  | (.timeout, s, link) => ((.timeout, 0), s, link)
  | (.done, s₁, link₁) =>
    if _h : s₁.rbuffer.length < 4 then
      -- what this side has not sent is given instead
      if s₁.wbuffer = [] then ((.shutdown, 0), { s₁ with shutdown := true }, link₁)
      else ((.data s₁.wbuffer, 0), { s₁ with shutdown := true, wbuffer := [] }, link₁)
    else
      let size := (ntohl s₁.rbuffer).toNat
      if size = 0 ∨ max_data_size < size then
        let ((o, skipped), s, link) := read (pop 1 s₁) link₁
        ((o, skipped + 1), s, link)
      else
        match _h₂ : getData (size + 4) s₁ link₁ with
        | (.interrupt, s, link) => ((.null, 0), s, link)
        | (.timeout, s, link) => ((.timeout, 0), s, link)
        | (.done, s₂, link₂) =>
          let r :=
            if size + 4 ≤ s₂.rbuffer.length then uncompress ((s₂.rbuffer.drop 4).take size) else []
          if r = [] then
            let ((o, skipped), s, link) := read (pop 1 s₂) link₂
            ((o, skipped + 1), s, link)
          else ((.data r, 0), pop (size + 4) s₂, link₂)
termination_by (pending s link).length
decreasing_by
  · have hp := (getData_spec 4 s link).1
    rw [_h₁] at hp
    rw [← hp]
    exact pending_pop_lt Nat.zero_lt_one (by omega) _
  · have hp := (getData_spec 4 s link).1
    obtain ⟨hp', hlen⟩ := getData_spec (size + 4) s₁ link₁
    rw [_h₁] at hp
    rw [_h₂] at hp' hlen
    rw [← hp, ← hp']
    exact pending_pop_lt Nat.zero_lt_one (by dsimp only at hlen; omega) _

/-- Successive reads. -/
def reads : Nat → Stream → List Piece → List (Outcome × Nat)
  | 0, _, _ => []
  | n + 1, s, link =>
    let (r, s, link) := read s link
    r :: reads n s link

/-- The data that reads gave, one after the other. -/
def given : List (Outcome × Nat) → List Bytes
  | [] => []
  | (.data b, _) :: rs => b :: given rs
  | _ :: rs => given rs

/-- One call, and what it sends. One that throws sends nothing. -/
def step (level : Int) (size : Nat) (op : Op) (s : Stream) : List Bytes × Stream :=
  (match op with
    | .write b => write level size b s
    | .flush => flush level s).getD ([], s)

/-- Calls, one after the other, and what they send. -/
def run (level : Int) (size : Nat) : List Op → Stream → List Bytes × Stream
  | [], s => ([], s)
  | op :: ops, s =>
    let (sent, s) := step level size op s
    let (rest, s) := run level size ops s
    (sent ++ rest, s)

/-- The bytes that a writer puts on the link, after a last flush. -/
def wire (level : Int) (size : Nat) (ops : List Op) : Bytes :=
  (run level size (ops ++ [.flush]) init).1.flatten

/-! ## What a writer sends -/

theorem step_flush (level : Int) (size : Nat) (w : Bytes) :
    step level size .flush ⟨[], false, w⟩ =
      (if w = [] then [] else [frame level w], ⟨[], false, []⟩) := by
  rw [step, flush]
  by_cases hw : w = []
  · subst hw
    rfl
  · simp [hw]

theorem step_write (level : Int) (size : Nat) (b w : Bytes) :
    step level size (.write b) ⟨[], false, w⟩ =
      if max_data_size < b.length ∨ b = [] then ([], ⟨[], false, w⟩)
      else if size ≤ (w ++ b).length then ([frame level (w ++ b)], ⟨[], false, []⟩)
      else ([], ⟨[], false, w ++ b⟩) := by
  rw [step, write]
  by_cases hmax : max_data_size < b.length
  · simp [hmax]
  by_cases hnil : b = []
  · simp [hnil]
  by_cases hsize : size ≤ (w ++ b).length
  · have hne : w ++ b ≠ [] := List.append_ne_nil_of_right_ne_nil _ hnil
    simp only [if_neg hmax, if_neg hnil, if_pos hsize, if_neg (not_or.mpr ⟨hmax, hnil⟩), flush,
      if_neg hne, if_neg Bool.false_ne_true]
    rfl
  · simp only [if_neg hmax, if_neg hnil, if_neg hsize, if_neg (not_or.mpr ⟨hmax, hnil⟩),
      if_neg Bool.false_ne_true]
    rfl

/-- **A writer sends the frames of its batches.** -/
theorem run_eq (level : Int) (size : Nat) (ops : List Op) (w : Bytes) :
    (run level size (ops ++ [.flush]) ⟨[], false, w⟩).1 =
      (batches size ops w).map (frame level) := by
  induction ops generalizing w with
  | nil =>
    rw [List.nil_append, run, step_flush, batches]
    dsimp only
    split <;> rfl
  | cons op ops ih =>
    rw [List.cons_append, run]
    cases op with
    | write b =>
      rw [step_write, batches]
      by_cases hskip : max_data_size < b.length ∨ b = []
      · rw [if_pos hskip, if_pos hskip]
        exact ih w
      rw [if_neg hskip, if_neg hskip]
      by_cases hsize : size ≤ (w ++ b).length
      · rw [if_pos hsize, if_pos hsize]
        exact congrArg (frame level (w ++ b) :: ·) (ih [])
      · rw [if_neg hsize, if_neg hsize]
        exact ih (w ++ b)
    | flush =>
      rw [step_flush, batches]
      by_cases hw : w = []
      · rw [if_pos hw, if_pos hw]
        exact ih []
      · rw [if_neg hw, if_neg hw]
        exact congrArg (frame level w :: ·) (ih [])

theorem wire_eq (level : Int) (size : Nat) (ops : List Op) :
    wire level size ops = ((batches size ops []).map (frame level)).flatten :=
  congrArg List.flatten (run_eq level size ops [])

/-! ## What zlib makes of a batch -/

/-- A buffer that the reader accepts, compressed or not. -/
def Fits (level : Int) (b : Bytes) : Prop :=
  b.length ≤ max_data_size ∧ (compress level b).length ≤ max_data_size

/-- The size of a frame, as the reader finds it. -/
theorem ntohl_frame (level : Int) (b x : Bytes) :
    (ntohl (frame level b ++ x)).toNat = (compress level b).length % 2 ^ 32 := by
  rw [frame, List.append_assoc, ntohl_htonl]
  exact UInt32.toNat_ofNat

theorem compress_eq (level : Int) {b : Bytes} (hb : b ≠ []) :
    ∃ l, compress level b = htonl (UInt32.ofNat b.length) ++ Deflate.compress2 l b :=
  ⟨_, if_neg hb⟩

/-- **What fits is given back**, and what does not is not, in whole or in part. -/
theorem uncompress_compress (level : Int) {b : Bytes} (hb : b ≠ []) (h : Fits level b) :
    uncompress (compress level b) = b := by
  obtain ⟨l, hc⟩ := compress_eq level hb
  have hpos := List.length_pos_of_ne_nil hb
  have hne := List.length_pos_of_ne_nil (Deflate.compress2_ne_nil l b)
  have hmax := h.1
  have hbig : max_data_size < UInt32.size := by decide
  have hsize : (ntohl (htonl (UInt32.ofNat b.length) ++ Deflate.compress2 l b)).toNat = b.length := by
    rw [ntohl_htonl]
    exact UInt32.toNat_ofNat_of_lt' (by omega)
  have hlen : (htonl (UInt32.ofNat b.length) ++ Deflate.compress2 l b).length =
      4 + (Deflate.compress2 l b).length := by
    rw [List.length_append, length_htonl]
  have hcap : max b.length 1 = b.length := Nat.max_eq_left hpos
  rw [hc, uncompress, if_neg (by omega), if_neg (fun hand => by omega), hsize, hcap]
  dsimp only
  rw [if_neg (by omega), List.drop_left' (length_htonl _),
    Deflate.uncompress_compress2 l (Nat.le_refl _)]
  rfl

theorem uncompress_take (level : Int) {b : Bytes} (hb : b ≠ []) {n : Nat}
    (hn : n ≤ (compress level b).length)
    (h : n < (compress level b).length ∨ max_data_size < b.length) :
    uncompress ((compress level b).take n) = [] := by
  obtain ⟨l, hc⟩ := compress_eq level hb
  have hlen : (compress level b).length = 4 + (Deflate.compress2 l b).length := by
    rw [hc, List.length_append, length_htonl]
  have htake : ((compress level b).take n).length = n := List.length_take_of_le hn
  rw [uncompress, htake]
  by_cases h4 : n < 4
  · exact if_pos h4
  rw [if_neg h4]
  split
  · rfl
  · dsimp only
    split
    · rfl
    · rename_i hcap
      have hdrop : ((compress level b).take n).drop 4 = (Deflate.compress2 l b).take (n - 4) := by
        rw [List.drop_take, hc, List.drop_left' (length_htonl _)]
      rw [hdrop]
      rcases h with h | h
      · rw [Deflate.uncompress_incomplete (by omega)]
        rfl
      · by_cases hall : n < (compress level b).length
        · rw [Deflate.uncompress_incomplete (by omega)]
          rfl
        · -- the buffer of the reader is smaller than the data
          have hwhole : (Deflate.compress2 l b).take (n - 4) = Deflate.compress2 l b :=
            List.take_of_length_le (by omega)
          rw [hwhole, Deflate.uncompress_small l (by omega)]
          rfl

/-! ## What a reader gives -/

/-- A link where nothing interrupts a read. -/
def Quiet (link : List Piece) : Prop := ∀ p ∈ link, ∃ b, p = .raw b

/-- What getting data brings, when it is on its way. -/
structure Got (size : Nat) (s : Stream) (link : List Piece) (f : Fetch) (s' : Stream)
    (link' : List Piece) : Prop where
  pending : pending s' link' = pending s link
  wbuffer : s'.wbuffer = s.wbuffer
  length : link'.length ≤ link.length
  done : f = .done → size ≤ s'.rbuffer.length ∨ (s'.rbuffer = Link.pending s link ∧ link' = [])
  interrupted : f ≠ .done → link'.length < link.length
  quiet : Quiet link → f = .done ∧ Quiet link'

omit [Deflate] in
theorem getData_got (size : Nat) (s : Stream) (link : List Piece) :
    Got size s link (getData size s link).1 (getData size s link).2.1
      (getData size s link).2.2 := by
  induction link generalizing s with
  | nil =>
    by_cases h : size ≤ s.rbuffer.length
    · rw [getData_of_le h]
      exact ⟨rfl, rfl, Nat.le_refl _, fun _ => .inl h, fun hf => absurd rfl hf, fun hq => ⟨rfl, hq⟩⟩
    · rw [getData_nil (Nat.lt_of_not_le h)]
      refine ⟨rfl, rfl, Nat.le_refl _, fun _ => .inr ⟨?_, rfl⟩, fun hf => absurd rfl hf,
        fun hq => ⟨rfl, hq⟩⟩
      exact (List.append_nil _).symm
  | cons p link ih =>
    by_cases h : size ≤ s.rbuffer.length
    · rw [getData_of_le h]
      exact ⟨rfl, rfl, Nat.le_refl _, fun _ => .inl h, fun hf => absurd rfl hf, fun hq => ⟨rfl, hq⟩⟩
    have hlt := Nat.lt_of_not_le h
    -- a link that is not quiet because of its first piece
    have hnot : (∀ b, p ≠ .raw b) → ¬ Quiet (p :: link) := by
      intro hp hq
      obtain ⟨b, hb⟩ := hq p List.mem_cons_self
      exact hp b hb
    cases p with
    | raw b =>
      obtain ⟨h1, h2, h3, h4, h5, h6⟩ := ih { s with rbuffer := s.rbuffer ++ b }
      have hp : pending { s with rbuffer := s.rbuffer ++ b } link = pending s (.raw b :: link) := by
        rw [pending, pending, received, List.append_assoc]
      rw [getData_raw hlt]
      rw [hp] at h1 h4
      exact ⟨h1, h2, Nat.le_succ_of_le h3, h4, fun hf => Nat.lt_succ_of_lt (h5 hf),
        fun hq => h6 fun p hp => hq p (List.mem_cons_of_mem _ hp)⟩
    | other =>
      obtain ⟨h1, h2, h3, h4, h5, h6⟩ := ih s
      rw [getData_other hlt]
      exact ⟨h1, h2, Nat.le_succ_of_le h3, h4, fun hf => Nat.lt_succ_of_lt (h5 hf),
        fun hq => absurd hq (hnot nofun)⟩
    | null =>
      rw [getData_null hlt]
      exact ⟨rfl, rfl, Nat.le_succ _, nofun, fun _ => Nat.lt_succ_self _,
        fun hq => absurd hq (hnot nofun)⟩
    | timeout =>
      rw [getData_timeout hlt]
      exact ⟨rfl, rfl, Nat.le_succ _, nofun, fun _ => Nat.lt_succ_self _,
        fun hq => absurd hq (hnot nofun)⟩

variable {link : List Piece}

omit [Deflate] in
/-- Data that is on its way is in the buffer, unless something interrupts. -/
theorem Got.enough {size : Nat} {s' : Stream} {link' : List Piece}
    (h : Got size s link .done s' link') (hle : size ≤ (Link.pending s link).length) :
    size ≤ s'.rbuffer.length := by
  rcases h.done rfl with h' | ⟨h', -⟩
  · exact h'
  · rw [h']
    exact hle

/-- A read that something interrupts, and that skips nothing. -/
structure Interrupted (s : Stream) (link : List Piece) (o : Outcome × Nat) (s' : Stream)
    (link' : List Piece) : Prop where
  outcome : o = (.null, 0) ∨ o = (.timeout, 0)
  pending : pending s' link' = pending s link
  wbuffer : s'.wbuffer = s.wbuffer
  length : link'.length < link.length
  quiet : ¬ Quiet link

omit [Deflate] in
theorem Got.to_interrupted {size : Nat} {s₀ s' : Stream} {link₀ link' : List Piece} {f : Fetch}
    {o : Outcome × Nat} (h : Got size s₀ link₀ f s' link') (hf : f ≠ .done)
    (ho : o = (.null, 0) ∨ o = (.timeout, 0)) (hp : Link.pending s₀ link₀ = Link.pending s link)
    (hw : s₀.wbuffer = s.wbuffer) (hl : link₀.length ≤ link.length)
    (hq : Quiet link → Quiet link₀) : Interrupted s link o s' link' where
  outcome := ho
  pending := h.pending.trans hp
  wbuffer := h.wbuffer.trans hw
  length := Nat.lt_of_lt_of_le (h.interrupted hf) hl
  quiet := fun hqu => hf (h.quiet (hq hqu)).1

/-- A read that gives some data, and that skips nothing. -/
structure Gives (b x : Bytes) (s : Stream) (link : List Piece) (o : Outcome × Nat) (s' : Stream)
    (link' : List Piece) : Prop where
  outcome : o = (.data b, 0)
  pending : pending s' link' = x
  wbuffer : s'.wbuffer = s.wbuffer
  length : link'.length ≤ link.length
  quiet : Quiet link → Quiet link'

variable {level : Int}

/-- **A frame that fits gives its buffer**, as soon as it is there. -/
theorem read_frame {b x : Bytes} (hb : b ≠ []) (hfits : Fits level b)
    (hc : pending s link = frame level b ++ x) :
    Interrupted s link (read s link).1 (read s link).2.1 (read s link).2.2 ∨
    Gives b x s link (read s link).1 (read s link).2.1 (read s link).2.2 := by
  have hframe : (frame level b).length = 4 + (compress level b).length := by
    rw [frame, List.length_append, length_htonl]
  have hlen : (pending s link).length = 4 + (compress level b).length + x.length := by
    rw [hc, List.length_append, hframe]
  have hpos : 0 < (compress level b).length := by
    obtain ⟨l, hl⟩ := compress_eq level hb
    rw [hl, List.length_append, length_htonl]
    omega
  have hmax := hfits.2
  have hbig : max_data_size < 2 ^ 32 := by decide
  have g₁ := getData_got 4 s link
  rw [read]
  split
  · rename_i s₁ link₁ h₁
    rw [h₁] at g₁
    exact .inl (g₁.to_interrupted nofun (.inl rfl) rfl rfl (Nat.le_refl _) id)
  · rename_i s₁ link₁ h₁
    rw [h₁] at g₁
    exact .inl (g₁.to_interrupted nofun (.inr rfl) rfl rfl (Nat.le_refl _) id)
  rename_i s₁ link₁ h₁
  rw [h₁] at g₁
  have hl₁ : 4 ≤ s₁.rbuffer.length := g₁.enough (by omega)
  -- the size of the frame is in the buffer
  have hsize : (ntohl s₁.rbuffer).toNat = (compress level b).length := by
    have htake : s₁.rbuffer.take 4 = (frame level b ++ x).take 4 := by
      rw [← hc, ← g₁.pending]
      exact (List.take_append_of_le_length hl₁).symm
    have hn := ntohl_frame level b x
    rw [ntohl, ← htake] at hn
    rw [ntohl, hn, Nat.mod_eq_of_lt (by omega)]
  rw [dif_neg (by omega)]
  dsimp only
  rw [hsize, if_neg (by omega)]
  have g₂ := getData_got ((compress level b).length + 4) s₁ link₁
  split
  · rename_i s₂ link₂ h₂
    rw [h₂] at g₂
    exact .inl (g₂.to_interrupted nofun (.inl rfl) g₁.pending g₁.wbuffer g₁.length
      fun hq => (g₁.quiet hq).2)
  · rename_i s₂ link₂ h₂
    rw [h₂] at g₂
    exact .inl (g₂.to_interrupted nofun (.inr rfl) g₁.pending g₁.wbuffer g₁.length
      fun hq => (g₁.quiet hq).2)
  rename_i s₂ link₂ h₂
  rw [h₂] at g₂
  have hp₂ : pending s₂ link₂ = frame level b ++ x := (g₂.pending.trans g₁.pending).trans hc
  have hl₂ : (compress level b).length + 4 ≤ s₂.rbuffer.length :=
    g₂.enough (by rw [g₁.pending]; omega)
  -- and then all of it
  have hbuf : s₂.rbuffer.take ((compress level b).length + 4) = frame level b := by
    have h := congrArg (List.take (frame level b).length) hp₂
    rw [List.take_left, hframe, Nat.add_comm 4, pending, List.take_append_of_le_length hl₂] at h
    exact h
  have hdata : (s₂.rbuffer.drop 4).take (compress level b).length = compress level b := by
    rw [List.take_drop, Nat.add_comm, hbuf, frame]
    exact List.drop_left' (length_htonl _)
  rw [if_pos hl₂, hdata, uncompress_compress level hb hfits, if_neg hb]
  refine .inr ⟨rfl, ?_, g₂.wbuffer.trans g₁.wbuffer, g₂.length.trans g₁.length,
    fun hq => (g₂.quiet (g₁.quiet hq).2).2⟩
  have h := congrArg (List.drop (frame level b).length) hp₂
  rw [List.drop_left, hframe, Nat.add_comm 4, pending, List.drop_append_of_le_length hl₂] at h
  exact h

/-- With nothing to come, a read gives nothing. -/
theorem read_nothing (hc : pending s link = [])
    (hw : s.wbuffer = []) :
    Interrupted s link (read s link).1 (read s link).2.1 (read s link).2.2 ∨
    ((read s link).1 = (.shutdown, 0) ∧ pending (read s link).2.1 (read s link).2.2 = [] ∧
      (read s link).2.1.wbuffer = [] ∧ (read s link).2.2.length ≤ link.length) := by
  have g₁ := getData_got 4 s link
  rw [read]
  split
  · rename_i s₁ link₁ h₁
    rw [h₁] at g₁
    exact .inl (g₁.to_interrupted nofun (.inl rfl) rfl rfl (Nat.le_refl _) id)
  · rename_i s₁ link₁ h₁
    rw [h₁] at g₁
    exact .inl (g₁.to_interrupted nofun (.inr rfl) rfl rfl (Nat.le_refl _) id)
  rename_i s₁ link₁ h₁
  rw [h₁] at g₁
  have hp₁ : pending s₁ link₁ = [] := g₁.pending.trans hc
  have hnil : s₁.rbuffer = [] := (List.append_eq_nil_iff.mp hp₁).1
  rw [dif_pos (by rw [hnil]; decide), if_pos (g₁.wbuffer.trans hw)]
  exact .inr ⟨rfl, hp₁, g₁.wbuffer.trans hw, g₁.length⟩

/-! ## Successive reads -/

variable {bs : List Bytes}

omit [Deflate] in
theorem length_le_length_flatten (h : ∀ b ∈ bs, b ≠ []) :
    bs.length ≤ bs.flatten.length := by
  induction bs with
  | nil => exact Nat.le_refl _
  | cons b bs ih =>
    obtain ⟨hb, hbs⟩ := List.forall_mem_cons.mp h
    have hpos := List.length_pos_of_ne_nil hb
    have hle := ih hbs
    rw [List.flatten_cons, List.length_append, List.length_cons]
    omega

theorem reads_succ (n : Nat) (s : Stream) (link : List Piece) :
    reads (n + 1) s link = (read s link).1 :: reads n (read s link).2.1 (read s link).2.2 := rfl

omit [Deflate] in
theorem given_cons_none {o : Outcome × Nat} (h : o = (.null, 0) ∨ o = (.timeout, 0))
    (rs : List (Outcome × Nat)) : given (o :: rs) = given rs := by
  rcases h with rfl | rfl <;> rfl

theorem reads_nothing (hc : pending s link = [])
    (hw : s.wbuffer = []) (n : Nat) :
    (∀ r ∈ reads n s link, r.2 = 0) ∧ given (reads n s link) = [] := by
  induction n generalizing s link with
  | zero => exact ⟨nofun, rfl⟩
  | succ n ih =>
    rw [reads_succ]
    rcases read_nothing hc hw with hi | ⟨ho, hp, hw', -⟩
    · obtain ⟨h1, h2⟩ := ih (hi.pending.trans hc) (hi.wbuffer.trans hw)
      refine ⟨List.forall_mem_cons.mpr ⟨?_, h1⟩, (given_cons_none hi.outcome _).trans h2⟩
      rcases hi.outcome with ho | ho <;> rw [ho]
    · obtain ⟨h1, h2⟩ := ih hp hw'
      rw [ho]
      exact ⟨List.forall_mem_cons.mpr ⟨rfl, h1⟩, h2⟩

/--
**Reads give the batches of a writer**, each once and in order, however the link cuts them
and interrupts; they skip nothing, and there is a number of reads that gives them all.
-/
theorem reads_frames (hb : ∀ b ∈ bs, b ≠ [] ∧ Fits level b)
    (hc : pending s link = (bs.map (frame level)).flatten)
    (hw : s.wbuffer = []) (n : Nat) :
    (∀ r ∈ reads n s link, r.2 = 0) ∧ given (reads n s link) <+: bs ∧
      (bs.length + link.length ≤ n → given (reads n s link) = bs) := by
  induction n generalizing s link bs with
  | zero =>
    refine ⟨nofun, List.nil_prefix, fun hn => ?_⟩
    exact (List.length_eq_zero_iff.mp (by omega)).symm
  | succ n ih =>
    cases bs with
    | nil =>
      obtain ⟨h1, h2⟩ := reads_nothing hc hw (n + 1)
      exact ⟨h1, h2 ▸ List.nil_prefix, fun _ => h2⟩
    | cons b bs =>
      rw [reads_succ]
      obtain ⟨hb₁, hbs⟩ := List.forall_mem_cons.mp hb
      rw [List.map_cons, List.flatten_cons] at hc
      rcases read_frame hb₁.1 hb₁.2 hc with hi | hg
      · obtain ⟨h1, h2, h3⟩ := ih hb (hi.pending.trans hc) (hi.wbuffer.trans hw)
        have hlt := hi.length
        rw [given_cons_none hi.outcome]
        refine ⟨List.forall_mem_cons.mpr ⟨?_, h1⟩, h2, fun hn => h3 (by omega)⟩
        rcases hi.outcome with ho | ho <;> rw [ho]
      · obtain ⟨h1, h2, h3⟩ := ih hbs hg.pending (hg.wbuffer.trans hw)
        have hle := hg.length
        rw [hg.outcome]
        refine ⟨List.forall_mem_cons.mpr ⟨rfl, h1⟩, List.cons_prefix_cons.mpr ⟨rfl, h2⟩, fun hn => ?_⟩
        rw [List.length_cons] at hn
        exact congrArg (b :: ·) (h3 (by omega))

/-! ## What does not fit -/

/-- A frame that does not fit makes the reader skip. -/
theorem read_skips {b x : Bytes} (hb : b ≠ []) (hfits : ¬ Fits level b)
    (hc : pending s link = frame level b ++ x) (hq : Quiet link) :
    (read s link).1.2 ≠ 0 := by
  have hframe : (frame level b).length = 4 + (compress level b).length := by
    rw [frame, List.length_append, length_htonl]
  have hlen : (pending s link).length = 4 + (compress level b).length + x.length := by
    rw [hc, List.length_append, hframe]
  have g₁ := getData_got 4 s link
  rw [read]
  split
  · rename_i s₁ link₁ h₁
    rw [h₁] at g₁
    exact absurd (g₁.quiet hq).1 nofun
  · rename_i s₁ link₁ h₁
    rw [h₁] at g₁
    exact absurd (g₁.quiet hq).1 nofun
  rename_i s₁ link₁ h₁
  rw [h₁] at g₁
  have hl₁ : 4 ≤ s₁.rbuffer.length := g₁.enough (by omega)
  have hsize : (ntohl s₁.rbuffer).toNat = (compress level b).length % 2 ^ 32 := by
    have htake : s₁.rbuffer.take 4 = (frame level b ++ x).take 4 := by
      rw [← hc, ← g₁.pending]
      exact (List.take_append_of_le_length hl₁).symm
    have hn := ntohl_frame level b x
    rw [ntohl, ← htake] at hn
    rw [ntohl, hn]
  have hle : (compress level b).length % 2 ^ 32 ≤ (compress level b).length := Nat.mod_le _ _
  rw [dif_neg (by omega)]
  dsimp only
  rw [hsize]
  generalize (compress level b).length % 2 ^ 32 = size at hle hsize ⊢
  by_cases hbad : size = 0 ∨ max_data_size < size
  · rw [if_pos hbad]
    exact Nat.succ_ne_zero _
  rw [if_neg hbad]
  have g₂ := getData_got (size + 4) s₁ link₁
  split
  · rename_i s₂ link₂ h₂
    rw [h₂] at g₂
    exact absurd (g₂.quiet (g₁.quiet hq).2).1 nofun
  · rename_i s₂ link₂ h₂
    rw [h₂] at g₂
    exact absurd (g₂.quiet (g₁.quiet hq).2).1 nofun
  rename_i s₂ link₂ h₂
  rw [h₂] at g₂
  have hp₂ : pending s₂ link₂ = frame level b ++ x := (g₂.pending.trans g₁.pending).trans hc
  have hl₂ : size + 4 ≤ s₂.rbuffer.length := g₂.enough (by rw [g₁.pending]; omega)
  -- what zlib is given is not all, or is too large for the buffer it is given
  have hdata : (s₂.rbuffer.drop 4).take size = (compress level b).take size := by
    have h := congrArg (List.drop 4) hp₂
    rw [frame, List.append_assoc, List.drop_left' (length_htonl _), pending,
      List.drop_append_of_le_length (by omega)] at h
    have h' := congrArg (List.take size) h
    rw [List.take_append_of_le_length (by rw [List.length_drop]; omega),
      List.take_append_of_le_length hle] at h'
    exact h'
  have hnil : uncompress ((compress level b).take size) = [] := by
    refine uncompress_take level hb hle ?_
    by_cases hmax : max_data_size < b.length
    · exact .inr hmax
    · left
      by_contra hge
      exact hfits ⟨by omega, by omega⟩
  rw [if_pos hl₂, hdata, hnil, if_pos rfl]
  exact Nat.succ_ne_zero _

theorem reads_skip (hb : ∀ b ∈ bs, b ≠ [])
    (hbad : ¬ ∀ b ∈ bs, Fits level b)
    (hc : pending s link = (bs.map (frame level)).flatten) (hq : Quiet link) :
    ∃ n, ∃ r ∈ reads n s link, r.2 ≠ 0 := by
  induction bs generalizing s link with
  | nil => exact absurd (fun b hb => by cases hb) hbad
  | cons b bs ih =>
    obtain ⟨hb₁, hbs⟩ := List.forall_mem_cons.mp hb
    rw [List.map_cons, List.flatten_cons] at hc
    by_cases hfits : Fits level b
    · rcases read_frame hb₁ hfits hc with hi | hg
      · exact absurd hq hi.quiet
      · have hrest : ¬ ∀ b ∈ bs, Fits level b := fun h =>
          hbad (List.forall_mem_cons.mpr ⟨hfits, h⟩)
        obtain ⟨n, r, hr, hne⟩ := ih hbs hrest hg.pending (hg.quiet hq)
        exact ⟨n + 1, r, List.mem_cons_of_mem _ hr, hne⟩
    · exact ⟨1, _, List.mem_cons_self, read_skips hb₁ hfits hc hq⟩

/-! ## Both sides -/

/--
The reader at the end of any link that carries what a writer sent: it never skips a byte,
and its reads give what was written, each byte once and in order, and all of it after
enough of them.
-/
def RoundTrips (level : Int) (size : Nat) (ops : List Op) : Prop :=
  ∀ link, received link = wire level size ops → ∀ n,
    (∀ r ∈ reads n init link, r.2 = 0) ∧
    (given (reads n init link)).flatten <+: written ops ∧
    ((written ops).length + link.length ≤ n → (given (reads n init link)).flatten = written ops)

theorem RoundTrips.fits {size : Nat} {ops : List Op} (h : RoundTrips level size ops) :
    ∀ b ∈ batches size ops [], Fits level b := by
  by_contra hbad
  have hreceived : received [.raw (wire level size ops)] = wire level size ops :=
    List.append_nil _
  have hquiet : Quiet [.raw (wire level size ops)] := by
    intro p hp
    exact ⟨_, List.mem_singleton.mp hp⟩
  have hc : pending init [.raw (wire level size ops)] =
      ((batches size ops []).map (frame level)).flatten :=
    hreceived.trans (wire_eq level size ops)
  obtain ⟨n, r, hr, hskip⟩ := reads_skip (batches_ne_nil size ops []) hbad hc hquiet
  exact hskip ((h _ hreceived n).1 r hr)

theorem round_trips_of_fits {size : Nat} {ops : List Op}
    (h : ∀ b ∈ batches size ops [], Fits level b) : RoundTrips level size ops := by
  intro link hlink n
  have hne := batches_ne_nil size ops []
  have hwritten : (batches size ops []).flatten = written ops := flatten_batches size ops []
  have hc : pending init link = ((batches size ops []).map (frame level)).flatten :=
    hlink.trans (wire_eq level size ops)
  obtain ⟨h1, h2, h3⟩ := reads_frames (fun b hb => ⟨hne b hb, h b hb⟩) hc rfl n
  refine ⟨h1, ?_, fun hn => ?_⟩
  · obtain ⟨rest, hrest⟩ := h2
    exact ⟨rest.flatten, by rw [← List.flatten_append, hrest, hwritten]⟩
  · have hlen : (batches size ops []).length ≤ (written ops).length := by
      rw [← hwritten]
      exact length_le_length_flatten hne
    rw [h3 (by omega), hwritten]

/--
**The round trip of the compression layer.** What is written comes back, and the reader
never skips, exactly when every buffer that the writer gathers has at most
`max_data_size` bytes, and so has what it is compressed to.
-/
theorem round_trips_iff (level : Int) (size : Nat) (ops : List Op) :
    RoundTrips level size ops ↔ ∀ b ∈ batches size ops [], Fits level b :=
  ⟨RoundTrips.fits, round_trips_of_fits⟩

omit [Deflate] in
/-- **A buffer that `write` takes may not come back.** -/
theorem not_round_trips :
    ¬ @RoundTrips stored 0 0 [.write (List.replicate max_data_size 0)] := by
  intro h
  have hlen : (List.replicate max_data_size (0 : UInt8)).length = max_data_size :=
    List.length_replicate
  have hne : List.replicate max_data_size (0 : UInt8) ≠ [] := by
    intro hnil
    rw [hnil] at hlen
    exact absurd hlen (by decide)
  have hbatches : batches 0 [.write (List.replicate max_data_size 0)] [] =
      [List.replicate max_data_size 0] := by
    rw [batches, if_neg (by rw [hlen, not_or]; exact ⟨Nat.lt_irrefl _, hne⟩),
      if_pos (Nat.zero_le _), batches, if_pos rfl, List.nil_append]
  have hfits := (@RoundTrips.fits stored _ _ _ h _ (by rw [hbatches]; exact List.mem_cons_self)).2
  obtain ⟨l, hc⟩ := @compress_eq stored 0 _ hne
  rw [hc, List.length_append, length_htonl] at hfits
  have hstore := length_lt_store (List.replicate max_data_size 0)
  rw [hlen] at hstore
  have hle : 4 + (store (List.replicate max_data_size 0)).length ≤ max_data_size := hfits
  omega

end CentreonBroker.Compression.Link
