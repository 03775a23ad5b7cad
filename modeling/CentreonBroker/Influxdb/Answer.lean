import CentreonBroker.Lib.Decimal
import CentreonBroker.Lib.Strtok
import Mathlib.Data.List.Infix
import Mathlib.Tactic.Cases

/-!
# The answer of InfluxDB

The answer is read in a buffer of 2048 bytes, and it is looked at after each read, as soon as it has
a line. When the buffer is full, 2048 is added to what was received and not to the size of the
buffer.
-/

namespace CentreonBroker.Influxdb

open Decimal

/-! ## The check -/

/-- What `_check_answer_string` does. -/
inductive Check where
  /-- `false`: there is no line yet. -/
  | incomplete
  | accepted
  | threw
  /-- A word that is not there is read. -/
  | outOfBounds
  deriving DecidableEq, Repr

def partial_write : List Char := "partial write: points beyond retention policy dropped".toList

/-- The words of the first line. -/
def split (ans : List Char) : List (List Char) :=
  Strtok.tokens isSpace (ans.takeWhile (· ≠ '\n'))

/-- What is not the answer to a query that was accepted may be a warning. -/
def check_body (ans : List Char) : Check :=
  if partial_write <:+: ans then .accepted else .threw

def check_split (split : List (List Char)) (ans : List Char) : Check :=
  match split with
  | w₀ :: w₁ :: w₂ :: words =>
    if w₀ = "HTTP/1.0".toList ∧ w₁ = "204".toList ∧ w₂ = "No".toList then
      -- `split[3]`, when there may be three words
      match words with
      | [] => .outOfBounds
      | w₃ :: _ => if w₃ = "Content".toList then .accepted else check_body ans
    else check_body ans
  | _ => .threw

/-- `_check_answer_string`. -/
def check_answer_string (ans : List Char) : Check :=
  if '\n' ∈ ans then check_split (split ans) ans else .incomplete

/-! ## The loop -/

def read_size : ℕ := 2048

/-- `resize` of a string. -/
def resize (n : ℕ) (s : List Char) : List Char :=
  s.take n ++ List.replicate (n - s.length) '\x00'

/-- Bytes that are stored from `&s[pos]` on. -/
def store (pos : ℕ) (bytes s : List Char) : List Char :=
  s.take pos ++ bytes ++ s.drop (pos + bytes.length)

inductive Ending where
  | accepted
  | threw
  | outOfBounds
  /-- The buffer has no room, so that each read gives nothing. -/
  | hangs
  deriving DecidableEq, Repr

/-- How the loop ends, and the texts that were checked. -/
structure Reading where
  ending : Ending
  texts : List (List Char)

/-- `read_some`: what comes next, as far as there is room, and what is left. -/
def rest (room : ℕ) (c : List Char) (cut : List (List Char)) : List (List Char) :=
  if c.length ≤ room then cut else c.drop room :: cut

/-- What is left to read. -/
def left (cut : List (List Char)) : ℕ := (cut.map fun c => c.length + 1).sum

theorem left_rest {room : ℕ} (h : room ≠ 0) (c : List Char) (cut : List (List Char)) :
    left (rest room c cut) < left (c :: cut) := by
  rw [rest]
  split
  · simp only [left, List.map_cons, List.sum_cons]
    omega
  · simp only [left, List.map_cons, List.sum_cons, List.length_drop]
    omega

/-- The loop of `commit`, over the pieces that the answer comes in. Behind the last one there is
an error: the connection is closed. -/
def read_loop (cut : List (List Char)) (answer : List Char) (total_read : ℕ) : Reading :=
  let answer := resize read_size answer
  let room := read_size - total_read
  if read_size < total_read then ⟨.outOfBounds, []⟩
  else if room = 0 then ⟨.hangs, []⟩
  else match cut with
    | [] => ⟨.threw, []⟩
    | c :: cut =>
      let bytes := c.take room
      let answer := store total_read bytes answer
      let total_read := total_read + bytes.length
      let total_read := if total_read = read_size then total_read + 2048 else total_read
      let answer := resize total_read answer
      match check_answer_string answer with
      | .incomplete =>
        let r := read_loop (rest room c cut) answer total_read
        { r with texts := answer :: r.texts }
      | .accepted => ⟨.accepted, [answer]⟩
      | .threw => ⟨.threw, [answer]⟩
      | .outOfBounds => ⟨.outOfBounds, [answer]⟩
termination_by left cut
decreasing_by exact left_rest ‹_› c cut

structure Influxdb12 where
  post_header : List Char
  query : List Char

namespace Influxdb12

def query_footer : List Char := ['\n']

/-- What is posted. -/
def final_query (s : Influxdb12) : List Char :=
  let length := s.query.length + query_footer.length
  let content_length := "Content-Length: ".toList ++ digits length ++ ['\n']
  s.post_header ++ content_length ++ ['\n'] ++ s.query ++ query_footer

/-- `commit`. The server gives the pieces of its answer to what is posted, when it is reached. -/
def commit (server : List Char → Option (List (List Char))) (s : Influxdb12) :
    Reading × Influxdb12 :=
  if s.query = [] then (⟨.accepted, []⟩, s)
  else
    match server s.final_query with
    | none => (⟨.threw, []⟩, s)
    | some cut =>
      let r := read_loop cut [] 0
      (r, if r.ending = .accepted then { s with query := [] } else s)

/-! ## What is asked of it -/

/-- The answer is taken as if it came as a whole, in whatever pieces it comes. -/
structure Independent (s : Influxdb12) (cut : List (List Char)) : Prop where
  returns : (s.commit fun _ => some cut).1.ending ≠ .outOfBounds ∧
    (s.commit fun _ => some cut).1.ending ≠ .hangs
  verdict : (s.commit fun _ => some cut).1.ending = .accepted ↔
    check_answer_string cut.flatten = .accepted
  checks_prefix : ∀ t ∈ (s.commit fun _ => some cut).1.texts, t <+: cut.flatten
  cleared : (s.commit fun _ => some cut).2.query = [] ↔
    (s.commit fun _ => some cut).1.ending = .accepted

end Influxdb12

/-- What was received when the byte at `pos` is, over the pieces that are left. -/
def arrived (pos : ℕ) : ℕ → List (List Char) → ℕ
  | received, [] => received
  | received, c :: cut =>
    if pos < received + c.length then received + c.length
    else arrived pos (received + c.length) cut

def noContent : List (List Char) := ["HTTP/1.0".toList, "204".toList, "No".toList]

/-- The line alone decides. -/
def Decided (split : List (List Char)) : Prop :=
  split.length < 3 ∨ noContent ++ ["Content".toList] <+: split

instance : DecidablePred Decided := fun _ => inferInstanceAs (Decidable (_ ∨ _))

/-- The line does not fill the buffer, neither does what came with it (it may where zeros are all
that follows), it does not stop at the third word, and if the text decides, it is there. -/
def Sound (cut : List (List Char)) : Prop :=
  let answer := cut.flatten
  let line := answer.takeWhile (· ≠ '\n')
  let received := min read_size (arrived line.length 0 cut)
  if '\n' ∈ answer then
    line.length < read_size ∧
      (received < read_size ∨ List.replicate 2048 '\x00' <+: answer.drop read_size) ∧
      split answer ≠ noContent ∧
      (Decided (split answer) ∨
        (partial_write <:+: answer → partial_write <:+: answer.take received))
  else answer.length < read_size

instance : DecidablePred Sound := fun _ => inferInstanceAs (Decidable (ite _ _ _))

/-! ## What decides -/

/-- The place of the end of the line is in what has it. -/
theorem line_lt_iff {s : List Char} :
    (s.takeWhile (· ≠ '\n')).length < s.length ↔ '\n' ∈ s := by
  induction s with
  | nil => simp
  | cons c s ih =>
    by_cases hc : c = '\n'
    · subst hc
      simp
    · rw [List.takeWhile_cons_of_pos (by simpa using hc), List.length_cons, List.length_cons,
        Nat.succ_lt_succ_iff, ih, List.mem_cons]
      exact ⟨.inr, fun h => h.resolve_left (Ne.symm hc)⟩

/-- The line is what it is as soon as its end is there. -/
theorem takeWhile_line {s : List Char} (h : '\n' ∈ s) (r : List Char) :
    (s ++ r).takeWhile (· ≠ '\n') = s.takeWhile (· ≠ '\n') := by
  induction s with
  | nil => cases h
  | cons c s ih =>
    by_cases hc : c = '\n'
    · subst hc
      rfl
    · have hs : '\n' ∈ s := (List.mem_cons.mp h).resolve_left (Ne.symm hc)
      rw [List.cons_append, List.takeWhile_cons_of_pos (by simpa using hc),
        List.takeWhile_cons_of_pos (by simpa using hc), ih hs]

/-- The words decide alone, or the text does. -/
theorem check_split_cases (split : List (List Char)) :
    split = noContent ∧ (∀ ans, check_split split ans = .outOfBounds) ∨
      split ≠ noContent ∧ Decided split ∧
          (∃ v, (v = .accepted ∨ v = .threw) ∧ ∀ ans, check_split split ans = v) ∨
      split ≠ noContent ∧ ¬ Decided split ∧ ∀ ans, check_split split ans = check_body ans := by
  rcases split with _ | ⟨w₀, _ | ⟨w₁, _ | ⟨w₂, words⟩⟩⟩
  · exact .inr (.inl ⟨by simp [noContent], .inl (by simp), .threw, .inr rfl, fun _ => rfl⟩)
  · exact .inr (.inl ⟨by simp [noContent], .inl (by simp), .threw, .inr rfl, fun _ => rfl⟩)
  · exact .inr (.inl ⟨by simp [noContent], .inl (by simp), .threw, .inr rfl, fun _ => rfl⟩)
  · simp only [check_split]
    by_cases hno : w₀ = "HTTP/1.0".toList ∧ w₁ = "204".toList ∧ w₂ = "No".toList
    · simp only [if_pos hno]
      obtain ⟨rfl, rfl, rfl⟩ := hno
      cases words with
      | nil => exact .inl ⟨rfl, fun _ => rfl⟩
      | cons w₃ words =>
        by_cases hw : w₃ = "Content".toList
        · subst hw
          refine .inr (.inl ⟨by simp [noContent], .inr ⟨words, rfl⟩, .accepted, .inl rfl, ?_⟩)
          intro ans
          exact if_pos rfl
        · refine .inr (.inr ⟨by simp [noContent], ?_, fun ans => if_neg hw⟩)
          rintro (hlt | ⟨words', heq⟩)
          · rw [List.length_cons, List.length_cons, List.length_cons, List.length_cons] at hlt
            omega
          · simp only [noContent, List.cons_append, List.nil_append, List.cons.injEq,
              true_and] at heq
            exact hw heq.1.symm
    · simp only [if_neg hno]
      refine .inr (.inr ⟨?_, ?_, fun _ => trivial⟩)
      · intro heq
        simp only [noContent, List.cons.injEq] at heq
        exact hno ⟨heq.1, heq.2.1, heq.2.2.1⟩
      · rintro (hlt | ⟨words', heq⟩)
        · rw [List.length_cons, List.length_cons, List.length_cons] at hlt
          omega
        · simp only [noContent, List.cons_append, List.cons.injEq] at heq
          exact hno ⟨heq.1.symm, heq.2.1.symm, heq.2.2.1.symm⟩

/-- A text that has the line, and what is decided of it. -/
theorem check_text_iff {text answer : List Char} (hline : '\n' ∈ text)
    (hsplit : split text = split answer) (hanswer : '\n' ∈ answer)
    (hwrite : partial_write <:+: text → partial_write <:+: answer) :
    check_answer_string text ≠ .outOfBounds ∧
        (check_answer_string text = .accepted ↔ check_answer_string answer = .accepted) ↔
      split answer ≠ noContent ∧
        (Decided (split answer) ∨
          (partial_write <:+: answer → partial_write <:+: text)) := by
  rw [check_answer_string, check_answer_string, if_pos hline, if_pos hanswer, hsplit]
  rcases check_split_cases (split answer) with
    ⟨hno, hall⟩ | ⟨hno, hdecided, v, hv, hall⟩ | ⟨hno, hdecided, hall⟩
  · rw [hall text]
    exact iff_of_false (fun h => h.1 rfl) fun h => h.1 hno
  · rw [hall text, hall answer]
    refine iff_of_true ⟨?_, Iff.rfl⟩ ⟨hno, .inl hdecided⟩
    rcases hv with rfl | rfl <;> exact Check.noConfusion
  · rw [hall text, hall answer, and_iff_right hno, or_iff_right hdecided, check_body, check_body]
    by_cases htext : partial_write <:+: text
    · rw [if_pos htext, if_pos (hwrite htext)]
      exact iff_of_true ⟨Check.noConfusion, Iff.rfl⟩ fun _ => htext
    · rw [if_neg htext]
      by_cases hans : partial_write <:+: answer
      · rw [if_pos hans]
        exact iff_of_false (fun h => Check.noConfusion (h.2.mpr rfl)) fun h => htext (h hans)
      · rw [if_neg hans]
        exact iff_of_true ⟨Check.noConfusion, Iff.rfl⟩ fun h => absurd h hans

/-! ## The loop -/

theorem store_resize {received c : List Char} {n : ℕ} (h : received.length ≤ n) :
    store received.length c (resize n received) =
      received ++ c ++ List.replicate (n - (received.length + c.length)) '\x00' := by
  rw [store, resize, List.take_of_length_le h, List.take_append_of_le_length (le_refl _),
    List.take_length, List.drop_append, List.drop_of_length_le (by omega), List.nil_append,
    List.drop_replicate]
  congr 2
  omega

theorem resize_append (a b : List Char) : resize a.length (a ++ b) = a := by
  rw [resize, List.take_append_of_le_length (le_refl _), List.take_length, List.length_append,
    Nat.sub_eq_zero_of_le (Nat.le_add_right _ _), List.replicate_zero, List.append_nil]

/-- What follows the check of a text. -/
def stop (text : List Char) (next : Reading) : Reading :=
  match check_answer_string text with
  | .incomplete => next
  | .accepted => ⟨.accepted, [text]⟩
  | .threw => ⟨.threw, [text]⟩
  | .outOfBounds => ⟨.outOfBounds, [text]⟩

/-- A piece that leaves room is behind what was received. -/
theorem read_loop_short {received c : List Char} (h : received.length + c.length < read_size)
    (cut : List (List Char)) :
    read_loop (c :: cut) received received.length =
      let r := read_loop cut (received ++ c) (received ++ c).length
      stop (received ++ c) { r with texts := (received ++ c) :: r.texts } := by
  have hbytes : c.take (read_size - received.length) = c := List.take_of_length_le (by omega)
  have hrest : rest (read_size - received.length) c cut = cut := if_pos (by omega)
  rw [read_loop, if_neg (by omega), if_neg (by omega)]
  simp only [hbytes, hrest]
  rw [if_neg (by omega), store_resize (by omega), ← List.length_append, resize_append]
  rfl

/-- What is checked when the buffer is full. -/
def fullText (received : List Char) : List Char :=
  received.take read_size ++ List.replicate 2048 '\x00'

theorem read_loop_outOfBounds (cut : List (List Char)) (answer : List Char) {total_read : ℕ}
    (h : read_size < total_read) : read_loop cut answer total_read = ⟨.outOfBounds, []⟩ := by
  rw [read_loop.eq_def]
  exact if_pos h

/-- A piece that fills the buffer. The next read is out of bounds. -/
theorem read_loop_full {received c : List Char} (hroom : received.length < read_size)
    (h : read_size ≤ received.length + c.length) (cut : List (List Char)) :
    read_loop (c :: cut) received received.length =
      stop (fullText (received ++ c)) ⟨.outOfBounds, [fullText (received ++ c)]⟩ := by
  have hlength : received.length + (c.take (read_size - received.length)).length = read_size := by
    rw [List.length_take]
    omega
  have htext : resize (read_size + 2048) (store received.length
      (c.take (read_size - received.length)) (resize read_size received)) =
        fullText (received ++ c) := by
    have hfull : received ++ c.take (read_size - received.length) =
        (received ++ c).take read_size := by
      rw [List.take_append, List.take_of_length_le hroom.le]
    rw [store_resize hroom.le, hlength, Nat.sub_self, List.replicate_zero, List.append_nil, resize,
      hfull, List.take_of_length_le, List.length_take, List.length_append, Nat.min_eq_left h,
      Nat.add_sub_cancel_left, fullText]
    rw [List.length_take]
    omega
  rw [read_loop, if_neg (by omega), if_neg (by omega)]
  simp only [hlength, if_true, htext]
  rw [read_loop_outOfBounds _ _ (Nat.lt_add_of_pos_right (by omega))]
  rfl

/-! ## The zeros of a full buffer -/

theorem infix_of_infix_append_replicate {α : Type} {l x : List α} {c : α} (hne : l ≠ [])
    (hc : c ∉ l) {n : ℕ} (h : l <:+: x ++ List.replicate n c) : l <:+: x := by
  induction n with
  | zero => rwa [List.replicate_zero, List.append_nil] at h
  | succ n ih =>
    rw [List.replicate_succ', ← List.append_assoc] at h
    rcases List.infix_concat_iff.mp h with hsuffix | hinfix
    · -- the last byte is a zero
      rcases List.suffix_concat_iff.mp hsuffix with hnil | ⟨t, rfl, -⟩
      · exact absurd hnil hne
      · exact absurd (List.mem_append_right t List.mem_cons_self) hc
    · exact ih hinfix

theorem mem_fullText {received : List Char} :
    '\n' ∈ fullText received ↔ '\n' ∈ received.take read_size := by
  rw [fullText, List.mem_append, or_iff_left]
  intro hmem
  exact absurd (List.eq_of_mem_replicate hmem) (by decide)

theorem partial_write_fullText {received : List Char} :
    partial_write <:+: fullText received ↔ partial_write <:+: received.take read_size := by
  have hne : partial_write ≠ [] := by decide +kernel
  have hnul : '\x00' ∉ partial_write := by decide +kernel
  rw [fullText]
  constructor
  · exact infix_of_infix_append_replicate hne hnul
  · intro h
    exact h.trans (List.prefix_append _ _).isInfix

/-- It is in the answer when zeros follow. -/
theorem fullText_prefix_iff {received : List Char} (h : read_size ≤ received.length)
    (rest : List Char) :
    fullText received <+: received ++ rest ↔
      List.replicate 2048 '\x00' <+: (received ++ rest).drop read_size := by
  have hsplit :
      received ++ rest = received.take read_size ++ (received ++ rest).drop read_size := by
    rw [List.drop_append_of_le_length h, ← List.append_assoc, List.take_append_drop]
  rw [fullText]
  conv_lhs => rw [hsplit]
  exact List.prefix_append_right_inj _

/-! ## The pieces -/

/-- The reading returns what the whole answer is worth, and checks nothing else. -/
def Good (r : Reading) (answer : List Char) : Prop :=
  (r.ending ≠ .outOfBounds ∧ r.ending ≠ .hangs) ∧
    (r.ending = .accepted ↔ check_answer_string answer = .accepted) ∧
    ∀ t ∈ r.texts, t <+: answer

/-- What is sound of the pieces that are left. -/
def SoundFrom (received : List Char) (cut : List (List Char)) : Prop :=
  let answer := received ++ cut.flatten
  let line := answer.takeWhile (· ≠ '\n')
  let received := min read_size (arrived line.length received.length cut)
  if '\n' ∈ answer then
    line.length < read_size ∧
      (received < read_size ∨ List.replicate 2048 '\x00' <+: answer.drop read_size) ∧
      split answer ≠ noContent ∧
      (Decided (split answer) ∨
        (partial_write <:+: answer → partial_write <:+: answer.take received))
  else answer.length < read_size

theorem check_ne_incomplete {text : List Char} (h : '\n' ∈ text) :
    check_answer_string text ≠ .incomplete := by
  rw [check_answer_string, if_pos h]
  rcases check_split_cases (split text) with ⟨-, hall⟩ | ⟨-, -, v, rfl | rfl, hall⟩ | ⟨-, -, hall⟩
  · rw [hall]
    exact Check.noConfusion
  · rw [hall]
    exact Check.noConfusion
  · rw [hall]
    exact Check.noConfusion
  · rw [hall, check_body]
    split <;> exact Check.noConfusion

/-- The line is in the text that is checked, and the loop ends. -/
theorem good_stop_iff {text answer : List Char} (hline : '\n' ∈ text) (next : Reading) :
    Good (stop text next) answer ↔
      (check_answer_string text ≠ .outOfBounds ∧
        (check_answer_string text = .accepted ↔ check_answer_string answer = .accepted)) ∧
      text <+: answer := by
  have hne := check_ne_incomplete hline
  rw [Good, stop]
  cases hcheck : check_answer_string text with
  | incomplete => exact absurd hcheck hne
  | accepted => simp
  | threw => simp
  | outOfBounds => simp

theorem arrived_cons (pos received : ℕ) (c : List Char) (cut : List (List Char)) :
    arrived pos received (c :: cut) =
      if pos < received + c.length then received + c.length
      else arrived pos (received + c.length) cut := rfl

/-- A line that is not there yet is not shorter than what is. -/
theorem length_le_line {s : List Char} (h : '\n' ∉ s) (r : List Char) :
    s.length ≤ ((s ++ r).takeWhile (· ≠ '\n')).length := by
  have hne : ∀ c ∈ s, decide (c ≠ '\n') = true := by
    intro c hc
    rw [decide_eq_true_eq]
    rintro rfl
    exact h hc
  rw [List.takeWhile_append_of_pos hne, List.length_append]
  omega

theorem split_append {s : List Char} (h : '\n' ∈ s) (r : List Char) : split (s ++ r) = split s := by
  rw [split, split, takeWhile_line h]

section Pieces

variable {received c : List Char} {cut : List (List Char)}

/-- The line ends in a piece that leaves room. -/
theorem good_iff_of_short (hshort : received.length + c.length < read_size)
    (hend : '\n' ∈ received ++ c) (next : Reading) :
    Good (stop (received ++ c) next) (received ++ c ++ cut.flatten) ↔
      SoundFrom received (c :: cut) := by
  have hanswer : '\n' ∈ received ++ c ++ cut.flatten := List.mem_append_left _ hend
  have hprefix : received ++ c <+: received ++ c ++ cut.flatten := List.prefix_append _ _
  have hline : ((received ++ c ++ cut.flatten).takeWhile (· ≠ '\n')).length <
      received.length + c.length := by
    rw [takeWhile_line hend, ← List.length_append]
    exact line_lt_iff.mpr hend
  have htake : (received ++ c ++ cut.flatten).take (received.length + c.length) =
      received ++ c := by
    rw [← List.length_append, List.take_append_of_le_length (le_refl _), List.take_length]
  rw [good_stop_iff hend, and_iff_left hprefix,
    check_text_iff hend (split_append hend _).symm hanswer fun h => h.trans hprefix.isInfix]
  rw [SoundFrom, List.flatten_cons, ← List.append_assoc, if_pos hanswer, arrived_cons,
    if_pos hline, Nat.min_eq_right hshort.le, htake, and_iff_right (hline.trans hshort)]
  -- there is room left in the buffer
  exact (and_iff_right (Or.inl hshort)).symm

/-- It ends in a piece that fills the buffer. -/
theorem good_iff_of_full (hfull : read_size ≤ received.length + c.length)
    (hend : '\n' ∈ (received ++ c).take read_size) (next : Reading) :
    Good (stop (fullText (received ++ c)) next) (received ++ c ++ cut.flatten) ↔
      SoundFrom received (c :: cut) := by
  have hlength : read_size ≤ (received ++ c).length := by rwa [List.length_append]
  have hsplit : received ++ c ++ cut.flatten =
      (received ++ c).take read_size ++ (received ++ c ++ cut.flatten).drop read_size := by
    rw [List.drop_append_of_le_length hlength, ← List.append_assoc, List.take_append_drop]
  have hanswer : '\n' ∈ received ++ c ++ cut.flatten :=
    List.mem_append_left _ (List.mem_of_mem_take hend)
  have hline : ((received ++ c ++ cut.flatten).takeWhile (· ≠ '\n')).length < read_size := by
    have hlt := line_lt_iff.mpr hend
    rw [List.length_take, Nat.min_eq_left hlength] at hlt
    rw [hsplit, takeWhile_line hend]
    exact hlt
  have htake : (received ++ c ++ cut.flatten).take read_size = (received ++ c).take read_size :=
    List.take_append_of_le_length hlength
  have htext : '\n' ∈ fullText (received ++ c) := mem_fullText.mpr hend
  have hwords : split (fullText (received ++ c)) = split (received ++ c ++ cut.flatten) := by
    rw [fullText, split_append hend, hsplit, split_append hend]
  have hwrite : partial_write <:+: fullText (received ++ c) →
      partial_write <:+: received ++ c ++ cut.flatten := by
    intro h
    refine (partial_write_fullText.mp h).trans ?_
    exact (List.take_prefix _ _).isInfix.trans (List.prefix_append _ _).isInfix
  rw [good_stop_iff htext, check_text_iff htext hwords hanswer hwrite,
    fullText_prefix_iff hlength, partial_write_fullText]
  rw [SoundFrom, List.flatten_cons, ← List.append_assoc, if_pos hanswer, arrived_cons,
    if_pos (hline.trans_le hfull), Nat.min_eq_left hfull, htake, and_iff_right hline,
    or_iff_right (Nat.lt_irrefl _)]
  exact and_comm

/-- The buffer is full before the line ends. -/
theorem not_soundFrom_of_full (hfull : read_size ≤ received.length + c.length)
    (hend : '\n' ∉ (received ++ c).take read_size) : ¬ SoundFrom received (c :: cut) := by
  have hlength : read_size ≤ (received ++ c).length := by rwa [List.length_append]
  have htake : (received ++ c).take read_size ++ (received ++ c ++ cut.flatten).drop read_size =
      received ++ c ++ cut.flatten := by
    rw [← List.take_append_of_le_length hlength, List.take_append_drop]
  rw [SoundFrom, List.flatten_cons, ← List.append_assoc]
  split
  · rintro ⟨hlt, -⟩
    have hle := length_le_line hend ((received ++ c ++ cut.flatten).drop read_size)
    rw [htake, List.length_take, Nat.min_eq_left hlength] at hle
    omega
  · intro hlt
    rw [List.length_append] at hlt
    omega

/-- Nothing ends in a piece that leaves room. -/
theorem soundFrom_append (hend : '\n' ∉ received ++ c) :
    SoundFrom (received ++ c) cut ↔ SoundFrom received (c :: cut) := by
  rw [SoundFrom, SoundFrom, List.flatten_cons, ← List.append_assoc]
  have hle := length_le_line hend cut.flatten
  rw [List.length_append] at hle
  rw [arrived_cons, if_neg (Nat.not_lt.mpr hle), List.length_append]

end Pieces

/-- **What the loop makes of the pieces that are left.** -/
theorem good_iff_soundFrom (cut : List (List Char)) {received : List Char}
    (hroom : received.length < read_size) (hline : '\n' ∉ received) :
    Good (read_loop cut received received.length) (received ++ cut.flatten) ↔
      SoundFrom received cut := by
  induction cut generalizing received with
  | nil =>
    have hloop : read_loop [] received received.length = ⟨.threw, []⟩ := by
      rw [read_loop, if_neg (by omega), if_neg (by omega)]
    rw [hloop, SoundFrom, List.flatten_nil, List.append_nil, if_neg hline]
    refine iff_of_true ⟨⟨Ending.noConfusion, Ending.noConfusion⟩, ?_, ?_⟩ hroom
    · rw [check_answer_string, if_neg hline]
      exact iff_of_false Ending.noConfusion Check.noConfusion
    · intro t ht
      cases ht
  | cons c cut ih =>
    have hflat : received ++ (c :: cut).flatten = received ++ c ++ cut.flatten := by
      rw [List.flatten_cons, List.append_assoc]
    rcases Nat.lt_or_ge (received.length + c.length) read_size with hshort | hfull
    · rw [read_loop_short hshort, hflat]
      by_cases hend : '\n' ∈ received ++ c
      · exact good_iff_of_short hshort hend _
      · have hcheck : check_answer_string (received ++ c) = .incomplete := if_neg hend
        have hroom' : (received ++ c).length < read_size := by rwa [List.length_append]
        rw [← soundFrom_append hend, ← ih hroom' hend]
        dsimp only
        rw [stop, hcheck]
        -- one more prefix was checked
        rw [Good, Good, List.forall_mem_cons, and_iff_right (List.prefix_append _ _)]
    · rw [read_loop_full hroom hfull, hflat]
      by_cases hend : '\n' ∈ (received ++ c).take read_size
      · exact good_iff_of_full hfull hend _
      · have hcheck : check_answer_string (fullText (received ++ c)) = .incomplete :=
          if_neg (mt mem_fullText.mp hend)
        rw [stop, hcheck]
        exact iff_of_false (fun h => h.1.1 rfl) (not_soundFrom_of_full hfull hend)

namespace Influxdb12

/-- **An answer is taken for what it is exactly when its pieces are sound.** -/
theorem independent_iff (s : Influxdb12) (hquery : s.query ≠ []) (cut : List (List Char)) :
    s.Independent cut ↔ Sound cut := by
  have hcommit : (s.commit fun _ => some cut) =
      (read_loop cut [] 0,
        if (read_loop cut [] 0).ending = .accepted then { s with query := [] } else s) := by
    rw [commit, if_neg hquery]
  have hgood := @good_iff_soundFrom cut [] (Nat.zero_lt_succ 2047) List.not_mem_nil
  rw [List.nil_append] at hgood
  refine Iff.trans ?_ hgood
  constructor
  · rintro ⟨hreturns, hverdict, hprefix, -⟩
    rw [hcommit] at hreturns hverdict hprefix
    exact ⟨hreturns, hverdict, hprefix⟩
  · rintro ⟨hreturns, hverdict, hprefix⟩
    refine ⟨?_, ?_, ?_, ?_⟩
    all_goals rw [hcommit]
    · exact hreturns
    · exact hverdict
    · exact hprefix
    · dsimp only
      split
      · rename_i hended
        exact iff_of_true rfl hended
      · rename_i hended
        exact iff_of_false hquery hended

theorem independent_no_content :
    (Influxdb12.mk [] "cpu value=1 1600000000\n".toList).Independent
      ["HTTP/1.0 204 No".toList, " Content\n".toList] :=
  (independent_iff _ (List.cons_ne_nil _ _) _).mpr (by decide +kernel)

/-- The line comes first, and then what says that points were dropped. The query was accepted, but
the line makes it throw. -/
theorem not_independent :
    ¬ (Influxdb12.mk [] "cpu value=1 1600000000\n".toList).Independent
      ["HTTP/1.0 400 Bad Request\n".toList, partial_write] := by
  intro h
  have hcheck : check_answer_string "HTTP/1.0 400 Bad Request\n".toList = .threw := by
    decide +kernel
  have hloop := @read_loop_short [] "HTTP/1.0 400 Bad Request\n".toList (by decide +kernel)
    [partial_write]
  dsimp only at hloop
  rw [List.nil_append, stop, hcheck] at hloop
  have hthrew : ((Influxdb12.mk [] "cpu value=1 1600000000\n".toList).commit fun _ =>
      some ["HTTP/1.0 400 Bad Request\n".toList, partial_write]).1.ending = .threw :=
    congrArg Reading.ending hloop
  have haccepted := h.verdict.mpr (by decide +kernel)
  rw [hthrew] at haccepted
  cases haccepted

end Influxdb12

end CentreonBroker.Influxdb
