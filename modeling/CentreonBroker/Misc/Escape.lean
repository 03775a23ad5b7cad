import CentreonBroker.Lib.Utf8

/-!
# `escape`

`misc::string::escape` puts a backslash in front of quotes and backslashes, and cuts the result at a
number of bytes. Where the cut falls between a backslash and the character that it escapes, the
backslash is to be removed; the test looks at the last two bytes.
-/

namespace CentreonBroker.Misc

open Utf8

namespace Escape

def quote : UInt8 := 0x27

def backslash : UInt8 := 0x5C

/-- `'` and `\`, which `find_first_of` looks for. -/
def isSpecial (c : UInt8) : Bool := c == quote || c == backslash

/-- The loop of `adjust_size_utf8`, which would leave the string in front of its first byte. -/
def back (str : Bytes) : ℕ → Option ℕ
  | 0 => if (str[0]?.getD 0) &&& 0xc0 = 0x80 then none else some 0
  | s + 1 => if (str[s + 1]?.getD 0) &&& 0xc0 = 0x80 then back str s else some (s + 1)

end Escape

open Escape

/-- `misc::string::adjust_size_utf8`. -/
def adjust_size_utf8 (str : Bytes) (s : ℕ) : Option ℕ :=
  if str.length ≤ s then some str.length else if s = 0 then some s else back str s

namespace Escape

/-- The loop of `escape`, where the last special character is at `found` and `rest` is behind it. -/
def loop (s found : ℕ) (rest ret : Bytes) : Bytes :=
  match _h : rest.dropWhile (!isSpecial ·) with
  | [] => ret ++ rest
  | c :: cs =>
    let ffound := found + 1 + (rest.takeWhile (!isSpecial ·)).length
    let ret := ret ++ rest.takeWhile (!isSpecial ·) ++ [backslash, c]
    if ffound < s then loop s ffound cs ret else ret
termination_by rest.length
decreasing_by
  have hlength := (List.dropWhile_suffix (fun c => !isSpecial c) (l := rest)).length_le
  rw [_h, List.length_cons] at hlength
  omega

/-- The end of `escape`: a last backslash goes, unless there is another one in front of it. -/
def repair (ret : Bytes) : Bytes :=
  match ret.reverse with
  | last :: before :: rest =>
    if last = backslash ∧ before ≠ backslash then (before :: rest).reverse else ret
  | _ => ret

end Escape

/-- `misc::string::escape`. -/
def escape (str : Bytes) (s : ℕ) : Option Bytes :=
  match str.dropWhile (!isSpecial ·) with
  | [] => (adjust_size_utf8 str s).map fun n => str.take n
  | c :: cs =>
    let found := (str.takeWhile (!isSpecial ·)).length
    let ret := loop s found cs (str.takeWhile (!isSpecial ·) ++ [backslash, c])
    (adjust_size_utf8 ret s).map fun n => repair (ret.take n)

namespace Escape

/-! ## The whole string, escaped -/

def escaped (str : Bytes) : Bytes := str.flatMap fun c => if isSpecial c then [backslash, c] else [c]

/-- What a reader finds between the quotes, or `none` where the literal ends before or goes on. -/
def unescape : Bytes → Option Bytes
  | [] => some []
  | [c] => if c = backslash ∨ c = quote then none else some [c]
  | c :: d :: ds =>
    if c = backslash then (unescape ds).map (d :: ·)
    else if c = quote then none
    else (unescape (d :: ds)).map (c :: ·)

/-- The number of backslashes at the end. -/
def trailing (bs : Bytes) : ℕ := (bs.reverse.takeWhile (· = backslash)).length

theorem escaped_append (as bs : Bytes) : escaped (as ++ bs) = escaped as ++ escaped bs :=
  List.flatMap_append

variable {c : UInt8}

theorem escaped_special (h : isSpecial c = true) (bs : Bytes) :
    escaped (c :: bs) = backslash :: c :: escaped bs := by
  rw [escaped, List.flatMap_cons, if_pos h]
  rfl

theorem escaped_ordinary (h : isSpecial c = false) (bs : Bytes) :
    escaped (c :: bs) = c :: escaped bs := by
  rw [escaped, List.flatMap_cons, if_neg (by simp [h])]
  rfl

variable {bs : Bytes}

theorem escaped_plain (h : ∀ c ∈ bs, isSpecial c = false) : escaped bs = bs := by
  induction bs with
  | nil => rfl
  | cons c bs ih =>
    rw [escaped_ordinary (h c List.mem_cons_self), ih fun d hd => h d (List.mem_cons_of_mem c hd)]

theorem length_le_escaped (bs : Bytes) : bs.length ≤ (escaped bs).length := by
  induction bs with
  | nil => exact Nat.le_refl 0
  | cons c bs ih =>
    cases hc : isSpecial c with
    | true =>
      rw [escaped_special hc]
      simp only [List.length_cons]
      omega
    | false =>
      rw [escaped_ordinary hc]
      simp only [List.length_cons]
      omega

theorem isSpecial_iff : isSpecial c = true ↔ c = quote ∨ c = backslash := by
  simp [isSpecial]

theorem ne_of_ordinary (h : isSpecial c = false) : c ≠ backslash ∧ c ≠ quote := by
  constructor <;> rintro rfl <;> simp [isSpecial] at h

theorem unescape_ordinary (h : isSpecial c = false) (bs : Bytes) :
    unescape (c :: bs) = (unescape bs).map (c :: ·) := by
  obtain ⟨hbackslash, hquote⟩ := ne_of_ordinary h
  cases bs with
  | nil => simp [unescape, hbackslash, hquote]
  | cons d ds => rw [unescape, if_neg hbackslash, if_neg hquote]

/-- A reader finds what was escaped. -/
theorem unescape_escaped (p r : Bytes) : unescape (escaped p ++ r) = (unescape r).map (p ++ ·) := by
  induction p with
  | nil =>
    show unescape r = (unescape r).map fun bs => bs
    cases unescape r <;> rfl
  | cons c p ih =>
    cases hc : isSpecial c with
    | true =>
      rw [escaped_special hc, List.cons_append, List.cons_append, unescape, if_pos rfl, ih,
        Option.map_map]
      rfl
    | false =>
      rw [escaped_ordinary hc, List.cons_append, unescape_ordinary hc, ih, Option.map_map]
      rfl

variable {str : Bytes}

/-- A beginning of an escaped string is an escaped string, but for a backslash where it stops between
the two bytes of an escape. -/
theorem prefix_escaped {q : Bytes} (h : q <+: escaped str) :
    ∃ p r, str = p ++ r ∧
      (q = escaped p ∨ q = escaped p ++ [backslash] ∧ ∃ c ∈ r.head?, isSpecial c = true) := by
  induction str generalizing q with
  | nil =>
    rw [List.prefix_nil.mp h]
    exact ⟨[], [], rfl, .inl rfl⟩
  | cons c str ih =>
    -- the rest of the string is looked at behind the bytes of the first character
    have hcons : ∀ {q' : Bytes}, q' <+: escaped str → q = escaped [c] ++ q' →
        ∃ p r, c :: str = p ++ r ∧
          (q = escaped p ∨ q = escaped p ++ [backslash] ∧ ∃ c ∈ r.head?, isSpecial c = true) := by
      rintro q' hq' rfl
      obtain ⟨p, r, rfl, hq⟩ := ih hq'
      refine ⟨c :: p, r, rfl, ?_⟩
      rw [show c :: p = [c] ++ p from rfl, escaped_append]
      rcases hq with rfl | ⟨rfl, hr⟩
      · exact .inl rfl
      · exact .inr ⟨(List.append_assoc ..).symm, hr⟩
    cases hc : isSpecial c with
    | true =>
      rw [escaped_special hc] at h
      match q, h with
      | [], _ => exact ⟨[], c :: str, rfl, .inl rfl⟩
      | [b], h =>
        obtain ⟨hb, -⟩ := List.cons_prefix_cons.mp h
        subst hb
        exact ⟨[], c :: str, rfl, .inr ⟨rfl, c, rfl, hc⟩⟩
      | b :: d :: q, h =>
        obtain ⟨hb, htail⟩ := List.cons_prefix_cons.mp h
        obtain ⟨hd, hrest⟩ := List.cons_prefix_cons.mp htail
        subst hb hd
        refine hcons hrest ?_
        rw [escaped_special hc]
        rfl
    | false =>
      rw [escaped_ordinary hc] at h
      match q, h with
      | [], _ => exact ⟨[], c :: str, rfl, .inl rfl⟩
      | b :: q, h =>
        obtain ⟨hb, hrest⟩ := List.cons_prefix_cons.mp h
        subst hb
        refine hcons hrest ?_
        rw [escaped_ordinary hc]
        rfl

theorem trailing_concat (bs : Bytes) (c : UInt8) :
    trailing (bs ++ [c]) = if c = backslash then trailing bs + 1 else 0 := by
  rw [trailing, List.reverse_concat]
  split
  · rename_i hc
    rw [List.takeWhile_cons_of_pos (by simp [hc]), List.length_cons, ← trailing]
  · rename_i hc
    rw [List.takeWhile_cons_of_neg (by simp [hc])]
    rfl

/-- The backslashes at the end of an escaped string come in pairs. -/
theorem trailing_escaped (p : Bytes) : trailing (escaped p) % 2 = 0 := by
  induction p using List.reverseRecOn with
  | nil => rfl
  | append_singleton p c ih =>
    rw [escaped_append]
    cases hc : isSpecial c with
    | true =>
      have hpair : escaped p ++ escaped [c] = escaped p ++ [backslash] ++ [c] := by
        rw [escaped_special hc, List.append_assoc]
        rfl
      rw [hpair, trailing_concat, trailing_concat, if_pos rfl]
      split <;> omega
    | false =>
      rw [escaped_ordinary hc]
      show trailing (escaped p ++ [c]) % 2 = 0
      rw [trailing_concat, if_neg (ne_of_ordinary hc).1]

/-! ## The cut -/

theorem mask_iff (c : UInt8) : c &&& 0xc0 = 0x80 ↔ Tail c := by
  have hall : ∀ n : Fin 256, UInt8.ofNat n.val &&& 0xc0 = 0x80 ↔ Tail (UInt8.ofNat n.val) := by
    decide +kernel
  have hc := hall ⟨c.toNat, c.toNat_lt⟩
  rw [UInt8.ofNat_toNat] at hc
  exact hc

/-- A text may be cut here. -/
def Boundary (bs : Bytes) (k : ℕ) : Prop := k ≤ bs.length ∧ ∀ b ∈ (bs.drop k).head?, ¬ Tail b

variable {k : ℕ}

theorem boundary_iff (hk : k < bs.length) :
    Boundary bs k ↔ ¬ (bs[k]?.getD 0) &&& 0xc0 = 0x80 := by
  rw [Boundary, List.head?_drop, List.getElem?_eq_getElem hk]
  constructor
  · intro h hmask
    exact h.2 _ rfl ((mask_iff _).mp hmask)
  · intro h
    refine ⟨Nat.le_of_lt hk, ?_⟩
    intro b hb htail
    cases hb
    exact h ((mask_iff _).mpr htail)

variable {s : ℕ}

/-- The loop stops at the last place where the text may be cut, which is at its start at the latest. -/
theorem back_spec (hvalid : Valid bs) (hs : s < bs.length) :
    ∃ k, back bs s = some k ∧ k ≤ s ∧ Boundary bs k ∧ ∀ j ≤ s, Boundary bs j → j ≤ k := by
  induction s with
  | zero =>
    have hstart : Boundary bs 0 := ⟨Nat.zero_le _, hvalid.head⟩
    refine ⟨0, ?_, Nat.le_refl 0, hstart, fun j hj _ => hj⟩
    rw [back, if_neg ((boundary_iff hs).mp hstart)]
  | succ s ih =>
    by_cases hmask : (bs[s + 1]?.getD 0) &&& 0xc0 = 0x80
    · obtain ⟨k, hk, hle, hboundary, hlast⟩ := ih (by omega)
      refine ⟨k, ?_, by omega, hboundary, ?_⟩
      · rw [back, if_pos hmask, hk]
      · intro j hj hjb
        rcases Nat.lt_or_eq_of_le hj with hlt | heq
        · exact hlast j (by omega) hjb
        · subst heq
          exact absurd hmask ((boundary_iff hs).mp hjb)
    · refine ⟨s + 1, ?_, Nat.le_refl _, (boundary_iff hs).mpr hmask, fun j hj _ => hj⟩
      rw [back, if_neg hmask]

/-- The size is brought down to the last place where the text may be cut. -/
theorem adjust_spec (hvalid : Valid bs) (s : ℕ) :
    ∃ k, adjust_size_utf8 bs s = some k ∧ k ≤ s ∧ Boundary bs k ∧ ∀ j ≤ s, Boundary bs j → j ≤ k := by
  by_cases hlength : bs.length ≤ s
  · refine ⟨bs.length, if_pos hlength, hlength, ⟨Nat.le_refl _, ?_⟩, fun j _ hj => hj.1⟩
    rw [List.drop_length]
    simp
  · by_cases hs : s = 0
    · refine ⟨0, ?_, by omega, ⟨Nat.zero_le _, hvalid.head⟩, fun j hj _ => by omega⟩
      rw [adjust_size_utf8, if_neg hlength, if_pos hs, hs]
    · obtain ⟨k, hk, hspec⟩ := back_spec hvalid (Nat.lt_of_not_le hlength)
      refine ⟨k, ?_, hspec⟩
      rw [adjust_size_utf8, if_neg hlength, if_neg hs, hk]

theorem back_le (h : back bs s = some k) : k ≤ s := by
  induction s with
  | zero =>
    rw [back] at h
    split at h
    · cases h
    · cases h
      exact Nat.le_refl 0
  | succ s ih =>
    rw [back] at h
    split at h
    · have hle := ih h
      omega
    · cases h
      exact Nat.le_refl _

theorem adjust_le (h : adjust_size_utf8 bs s = some k) : k ≤ bs.length := by
  rw [adjust_size_utf8] at h
  split at h
  · cases h
    exact Nat.le_refl _
  · split at h
    · cases h
      omega
    · have hle := back_le h
      omega

variable {p : Bytes}

theorem back_append {q : Bytes} (hs : s < p.length) : back (p ++ q) s = back p s := by
  induction s with
  | zero => rw [back, back, List.getElem?_append_left hs]
  | succ s ih => rw [back, back, List.getElem?_append_left hs, ih (by omega)]

/-- What stands behind the cut has no part in it. -/
theorem adjust_append (q : Bytes) (hs : s < p.length) :
    adjust_size_utf8 (p ++ q) s = adjust_size_utf8 p s := by
  rw [adjust_size_utf8, adjust_size_utf8, if_neg, if_neg (Nat.not_le.mpr hs), back_append hs]
  rw [List.length_append]
  omega

/-! ## The loop -/

/-- The string in front of a special character, and what comes from there. -/
theorem split_special (rest : Bytes) {cs : Bytes}
    (h : rest.dropWhile (!isSpecial ·) = c :: cs) :
    escaped rest = rest.takeWhile (!isSpecial ·) ++ [backslash, c] ++ escaped cs := by
  have hspecial : isSpecial c = true := by
    have hhead := List.head?_dropWhile_not (!isSpecial ·) rest
    rw [h] at hhead
    simpa using hhead
  have hplain : ∀ d ∈ rest.takeWhile (!isSpecial ·), isSpecial d = false := by
    intro d hd
    simpa using List.mem_takeWhile_imp hd
  have hsplit : escaped rest =
      escaped (rest.takeWhile (!isSpecial ·) ++ rest.dropWhile (!isSpecial ·)) := by
    rw [List.takeWhile_append_dropWhile]
  rw [hsplit, h, escaped_append, escaped_plain hplain, escaped_special hspecial,
    List.append_assoc]
  rfl

theorem plain_of_dropWhile {rest : Bytes} (h : rest.dropWhile (!isSpecial ·) = []) :
    escaped rest = rest := by
  refine escaped_plain ?_
  intro c hc
  simpa using List.dropWhile_eq_nil_iff.mp h c hc

/-- The loop copies until the end, or until there is more than the size. -/
theorem loop_spec (s found : ℕ) (rest ret : Bytes) (hfound : found + 2 ≤ ret.length) :
    loop s found rest ret = ret ++ escaped rest ∨
      s < (loop s found rest ret).length ∧ loop s found rest ret <+: ret ++ escaped rest := by
  fun_induction loop s found rest ret with
  | case1 found rest ret hdrop => exact .inl (by rw [plain_of_dropWhile hdrop])
  | case2 found rest ret c cs hdrop ffound ret' hlt ih =>
    have hlength : ffound + 2 ≤ ret'.length := by
      simp only [ffound, ret', List.length_append, List.length_cons, List.length_nil]
      omega
    have hsplit : ret ++ escaped rest = ret' ++ escaped cs := by
      rw [split_special rest hdrop]
      simp only [ret', List.append_assoc]
    rw [hsplit]
    exact ih hlength
  | case3 found rest ret c cs hdrop ffound ret' hge =>
    refine .inr ⟨?_, escaped cs, ?_⟩
    · simp only [ret', List.length_append, List.length_cons, List.length_nil]
      omega
    · rw [split_special rest hdrop]
      simp only [ret', List.append_assoc]

/-! ## The end -/

theorem repair_concat (p : Bytes) (b c : UInt8) :
    repair (p ++ [b] ++ [c]) =
      if c = backslash ∧ b ≠ backslash then p ++ [b] else p ++ [b] ++ [c] := by
  simp [repair]

/-- An end that is in order stays. -/
theorem repair_of_even (h : trailing bs % 2 = 0) : repair bs = bs := by
  rcases List.eq_nil_or_concat bs with rfl | ⟨p, c, rfl⟩
  · rfl
  rcases List.eq_nil_or_concat p with rfl | ⟨p, b, rfl⟩
  · rfl
  · rw [List.concat_eq_append, List.concat_eq_append, repair_concat, if_neg]
    rintro ⟨rfl, hb⟩
    rw [List.concat_eq_append, List.concat_eq_append, trailing_concat, if_pos rfl,
      trailing_concat, if_neg hb] at h
    omega

/-- A backslash behind something that is none goes. -/
theorem repair_of_ne {b : UInt8} (h : b ≠ backslash) :
    repair (p ++ [b] ++ [backslash]) = p ++ [b] := by
  rw [repair_concat, if_pos ⟨rfl, h⟩]

/-- The code cuts the whole string, escaped, and looks at its end. -/
theorem escape_eq_repair (str : Bytes) (s : ℕ) :
    escape str s = (adjust_size_utf8 (escaped str) s).map fun k => repair ((escaped str).take k) := by
  unfold escape
  split
  · rename_i hdrop
    rw [plain_of_dropWhile hdrop]
    refine congrArg (fun f => (adjust_size_utf8 str s).map f) (funext fun k => ?_)
    refine (repair_of_even ?_).symm
    -- there is no backslash in it
    have hplain : escaped (str.take k) = str.take k := by
      refine escaped_plain ?_
      intro c hc
      simpa using List.dropWhile_eq_nil_iff.mp hdrop c (List.mem_of_mem_take hc)
    rw [← hplain]
    exact trailing_escaped _
  · rename_i c cs hdrop
    simp only
    have hsplit := split_special str hdrop
    have hloop := loop_spec s (str.takeWhile (!isSpecial ·)).length cs
      (str.takeWhile (!isSpecial ·) ++ [backslash, c]) (by simp)
    rw [← hsplit] at hloop
    generalize loop s (str.takeWhile (!isSpecial ·)).length cs
      (str.takeWhile (!isSpecial ·) ++ [backslash, c]) = ret at hloop
    rcases hloop with rfl | ⟨hlong, q, hq⟩
    · rfl
    · rw [← hq, adjust_append q hlong]
      cases hk : adjust_size_utf8 ret s with
      | none => rfl
      | some k =>
        have hle := adjust_le hk
        rw [Option.map_some, Option.map_some, List.take_append_of_le_length hle]

/-! ## What a reader finds -/

/-- What is to be put between quotes: it fits, it is a text, and a reader finds a beginning of the
string in it, which is the whole one where there is room for it. -/
structure EscapedPrefix (str : Bytes) (s : ℕ) (out : Bytes) : Prop where
  length_le : out.length ≤ s
  valid : Valid out
  found : ∃ p, unescape out = some p ∧ p <+: str
  whole : (escaped str).length ≤ s → unescape out = some str

/-- There is room for one of the two bytes of an escape, and the other byte in front of it is missing
or a backslash. -/
def CutsEscape (str : Bytes) (s : ℕ) : Prop :=
  ∃ p r, str = p ++ r ∧ (∃ c ∈ r.head?, isSpecial c = true) ∧ s = (escaped p).length + 1 ∧
    (p = [] ∨ p.getLast? = some backslash)

theorem valid_escaped (h : Valid str) : Valid (escaped str) := by
  induction h with
  | nil => exact .nil
  | cons hs _ ih =>
    rename_i s bs
    rw [escaped_append]
    refine Valid.append ?_ ih
    obtain ⟨a, tails, rfl, -, htails⟩ := hs.shape
    have hplain : escaped tails = tails := by
      refine escaped_plain ?_
      intro c hc
      cases hspecial : isSpecial c with
      | false => rfl
      | true =>
        have htail := htails c hc
        rcases isSpecial_iff.mp hspecial with rfl | rfl <;> exact absurd htail (by decide)
    cases hspecial : isSpecial a with
    | false =>
      rw [escaped_ordinary hspecial, hplain]
      exact hs.valid
    | true =>
      rw [escaped_special hspecial, hplain]
      exact .cons (.one (by decide)) hs.valid

theorem unescape_self (p : Bytes) : unescape (escaped p) = some p := by
  have h := unescape_escaped p []
  rw [List.append_nil] at h
  rw [h, unescape, Option.map_some, List.append_nil]

theorem unescape_backslash (p : Bytes) : unescape (escaped p ++ [backslash]) = none := by
  rw [unescape_escaped]
  rfl

/-- The last byte stays the last one. -/
theorem escaped_concat (p : Bytes) (c : UInt8) : ∃ q, escaped (p ++ [c]) = q ++ [c] := by
  rw [escaped_append]
  cases h : isSpecial c with
  | true =>
    rw [escaped_special h]
    exact ⟨escaped p ++ [backslash], by rw [List.append_assoc]; rfl⟩
  | false =>
    rw [escaped_ordinary h]
    exact ⟨escaped p, rfl⟩

/-- A beginning is known by the length of what it becomes. -/
theorem prefix_unique {q : Bytes} (hp : p <+: str) (hq : q <+: str)
    (h : (escaped p).length = (escaped q).length) : p = q := by
  obtain ⟨r, rfl⟩ := hp
  obtain ⟨t, ht⟩ := hq
  have heq : escaped p ++ escaped r = escaped q ++ escaped t := by
    rw [← escaped_append, ← escaped_append, ht]
  have hfound := congrArg unescape (List.append_inj_left heq h)
  rw [unescape_self, unescape_self] at hfound
  exact Option.some.inj hfound

variable {r : Bytes}

theorem escaped_split (h : isSpecial c = true) :
    escaped (p ++ c :: r) = (escaped p ++ [backslash]) ++ c :: escaped r := by
  rw [escaped_append, escaped_special h, List.append_assoc]
  rfl

theorem trailing_backslash (p : Bytes) : trailing (escaped p ++ [backslash]) % 2 = 1 := by
  have heven := trailing_escaped p
  rw [trailing_concat, if_pos rfl]
  omega

/-- Between the two bytes of an escape, the text may be cut. -/
theorem boundary_escape (h : isSpecial c = true) :
    Boundary (escaped (p ++ c :: r)) ((escaped p).length + 1) := by
  rw [escaped_split h]
  constructor
  · simp
  · intro b hb
    rw [List.drop_left' (by simp)] at hb
    cases hb
    rcases isSpecial_iff.mp h with rfl | rfl <;> decide

/-- And behind them. -/
theorem boundary_behind (h : isSpecial c = true)
    (hvalid : Valid (p ++ c :: r)) : Boundary (escaped (p ++ c :: r)) ((escaped p).length + 2) := by
  have hr : Valid r := by
    have hcut : Valid (c :: r) := by
      refine (hvalid.cut ?_).2
      intro b hb
      cases hb
      rcases isSpecial_iff.mp h with rfl | rfl <;> decide
    refine Valid.tail (s := [c]) hcut (.one ?_)
    rcases isSpecial_iff.mp h with rfl | rfl <;> decide
  have hsplit : escaped (p ++ c :: r) = (escaped p ++ [backslash] ++ [c]) ++ escaped r := by
    rw [escaped_split h, List.append_assoc _ [c]]
    rfl
  rw [hsplit]
  constructor
  · simp
  · rw [List.drop_left' (by simp)]
    exact (valid_escaped hr).head

/-- **What `escape` yields may be put between quotes exactly when the size does not cut the escape of
a character that is the first one or stands behind a backslash.** -/
theorem escape_iff {str : Bytes} (hvalid : Valid str) (s : ℕ) :
    ∃ out, escape str s = some out ∧ (EscapedPrefix str s out ↔ ¬ CutsEscape str s) := by
  obtain ⟨k, hk, hle, hboundary, hlast⟩ := adjust_spec (valid_escaped hvalid) s
  refine ⟨repair ((escaped str).take k), ?_, ?_⟩
  · rw [escape_eq_repair, hk]
    rfl
  have hcut : Valid ((escaped str).take k) := by
    have hall := valid_escaped hvalid
    rw [← List.take_append_drop k (escaped str)] at hall
    exact (hall.cut hboundary.2).1
  have hlength : ((escaped str).take k).length = k := by
    rw [List.length_take]
    exact Nat.min_eq_left hboundary.1
  have hwhole : (escaped str).length ≤ s → (escaped str).take k = escaped str := by
    intro hfits
    refine List.take_of_length_le (hlast _ hfits ⟨Nat.le_refl _, ?_⟩)
    simp
  obtain ⟨p, r, rfl, heven | ⟨hodd, c, hc, hspecial⟩⟩ :=
    prefix_escaped (List.take_prefix k (escaped str))
  · -- the cut falls between two characters
    rw [repair_of_even (by rw [heven]; exact trailing_escaped p)]
    refine iff_of_true ⟨by omega, hcut, ?_, ?_⟩ ?_
    · rw [heven]
      exact ⟨p, unescape_self p, List.prefix_append p r⟩
    · intro hfits
      rw [hwhole hfits]
      exact unescape_self _
    · intro ⟨p', r', hstr, ⟨c, hc, hspecial⟩, hs, _⟩
      cases r' with
      | nil => cases hc
      | cons d r' =>
        cases hc
        have hkeep := hlast s (Nat.le_refl s) (by
          rw [hstr, hs]
          exact boundary_escape hspecial)
        have hcutEq : (escaped (p ++ r)).take k = escaped p' ++ [backslash] := by
          rw [hstr, escaped_split hspecial, List.take_left' (by simp; omega)]
        have hparity := trailing_backslash p'
        rw [← hcutEq, heven] at hparity
        have heven' := trailing_escaped p
        omega
  · -- it falls between the two bytes of an escape
    cases r with
    | nil => cases hc
    | cons d r =>
      cases hc
      have hs : s = (escaped p).length + 1 := by
        have hlen := congrArg List.length hodd
        rw [hlength] at hlen
        simp only [List.length_append, List.length_cons, List.length_nil] at hlen
        by_cases hlt : s < k + 1
        · omega
        · have hbehind := hlast (k + 1) (by omega) (by
            rw [hlen]
            exact boundary_behind hspecial hvalid)
          omega
      rw [hodd] at hcut ⊢
      rcases List.eq_nil_or_concat p with rfl | ⟨p, b, rfl⟩
      · refine iff_of_false ?_ (not_not.mpr ⟨[], c :: r, rfl, ⟨c, rfl, hspecial⟩, hs, .inl rfl⟩)
        intro h
        obtain ⟨q, hq, -⟩ := h.found
        cases hq
      rw [List.concat_eq_append] at hodd hs hcut hwhole ⊢
      obtain ⟨q, hq⟩ := escaped_concat p b
      by_cases hb : b = backslash
      · subst hb
        refine iff_of_false ?_ (not_not.mpr ⟨p ++ [backslash], c :: r, rfl, ⟨c, rfl, hspecial⟩, hs,
          .inr (by simp)⟩)
        intro h
        obtain ⟨found, hfound, -⟩ := h.found
        have hsame : repair (escaped (p ++ [backslash]) ++ [backslash]) =
            escaped (p ++ [backslash]) ++ [backslash] := by
          rw [hq, repair_concat, if_neg]
          intro hne
          exact hne.2 rfl
        rw [hsame, unescape_backslash] at hfound
        cases hfound
      · have hrepair : repair (escaped (p ++ [b]) ++ [backslash]) = escaped (p ++ [b]) := by
          rw [hq]
          exact repair_of_ne hb
        rw [hrepair]
        refine iff_of_true ⟨by omega, ?_, ⟨p ++ [b], unescape_self _, List.prefix_append _ _⟩, ?_⟩ ?_
        · refine (hcut.cut ?_).1
          intro x hx
          cases hx
          decide
        · intro hfits
          have hparity := trailing_backslash (p ++ [b])
          rw [← hodd, hwhole hfits] at hparity
          have heven := trailing_escaped (p ++ [b] ++ c :: r)
          omega
        · intro ⟨p', r', hstr, _, hs', hend⟩
          have hsame : p' = p ++ [b] := by
            refine prefix_unique (List.prefix_append p' r') ?_ (by omega)
            rw [← hstr]
            exact List.prefix_append _ _
          rw [hsame] at hend
          rcases hend with hnil | hend
          · simp at hnil
          · rw [List.getLast?_concat] at hend
            cases hend
            exact hb rfl

theorem escape_iff_text : ∃ out, escape (encode "it's") 4 = some out ∧
    (EscapedPrefix (encode "it's") 4 out ↔ ¬ CutsEscape (encode "it's") 4) :=
  escape_iff (valid_encode "it's") 4

/-- Of a backslash and a quote, three bytes are three backslashes. -/
theorem not_escaped_prefix : ¬ ∀ str s, Valid str →
    ∃ out, escape str s = some out ∧ EscapedPrefix str s out := by
  intro h
  obtain ⟨out, hout, hprefix⟩ := h [backslash, quote] 3 (.cons (.one (by decide)) (.cons (s := [quote])
    (.one (by decide)) .nil))
  rw [escape_eq_repair] at hout
  have hcut : out = [backslash, backslash, backslash] := (Option.some.inj hout).symm
  obtain ⟨p, hp, -⟩ := hprefix.found
  rw [hcut] at hp
  cases hp

/-! ## Any bytes -/

/-- What `adjust_size_utf8` looks at. -/
theorem back_eq_some (h : back bs s = some k) :
    k ≤ s ∧ ¬ Tail (bs[k]?.getD 0) ∧ ∀ j, k < j → j ≤ s → Tail (bs[j]?.getD 0) := by
  induction s with
  | zero =>
    rw [back] at h
    split at h
    · cases h
    · rename_i hmask
      cases h
      exact ⟨Nat.le_refl 0, fun htail => hmask ((mask_iff _).mpr htail), by omega⟩
  | succ s ih =>
    rw [back] at h
    split at h
    · rename_i hmask
      obtain ⟨hle, hhead, htails⟩ := ih h
      refine ⟨by omega, hhead, ?_⟩
      intro j hj hjs
      by_cases hlast : j = s + 1
      · rw [hlast]
        exact (mask_iff _).mp hmask
      · exact htails j hj (by omega)
    · rename_i hmask
      cases h
      exact ⟨Nat.le_refl _, fun htail => hmask ((mask_iff _).mpr htail), by omega⟩

theorem back_eq_none (h : back bs s = none) : ∀ j ≤ s, Tail (bs[j]?.getD 0) := by
  induction s with
  | zero =>
    rw [back] at h
    split at h
    · rename_i hmask
      intro j hj
      obtain rfl : j = 0 := by omega
      exact (mask_iff _).mp hmask
    · cases h
  | succ s ih =>
    rw [back] at h
    split at h
    · rename_i hmask
      intro j hj
      by_cases hlast : j = s + 1
      · rw [hlast]
        exact (mask_iff _).mp hmask
      · exact ih h j (by omega)
    · cases h

theorem not_tail_special (h : isSpecial c = true) : ¬ Tail c := by
  rw [← mask_iff]
  rcases isSpecial_iff.mp h with rfl | rfl <;> decide

/-- What begins the escaped string with continuation bytes begins the string with them. -/
theorem tails_escaped {n : ℕ} (hn : n ≤ (escaped str).length)
    (h : ∀ j < n, Tail ((escaped str)[j]?.getD 0)) :
    n ≤ str.length ∧ ∀ b ∈ str.take n, Tail b := by
  induction str generalizing n with
  | nil => exact ⟨hn, by simp⟩
  | cons c str ih =>
    cases n with
    | zero => exact ⟨Nat.zero_le _, by simp⟩
    | succ n =>
      have hfirst := h 0 (by omega)
      cases hc : isSpecial c with
      | true =>
        rw [escaped_special hc] at hfirst
        exact absurd hfirst (not_tail_special (c := backslash) rfl)
      | false =>
        rw [escaped_ordinary hc] at hn hfirst h
        obtain ⟨hlength, htails⟩ := ih (n := n) (by simpa using hn) fun j hj => h (j + 1) (by omega)
        refine ⟨by rw [List.length_cons]; omega, ?_⟩
        intro b hb
        rw [List.take_succ_cons] at hb
        rcases List.mem_cons.mp hb with rfl | hb
        · exact hfirst
        · exact htails b hb

/-- The size is inside of an escape, or of continuation bytes behind it, and the byte in front of the
escape is missing or a backslash. -/
def LeavesOpen (str : Bytes) (s : ℕ) : Prop :=
  ∃ p c t r, str = p ++ c :: (t ++ r) ∧ isSpecial c = true ∧ (∀ b ∈ t, Tail b) ∧
    s = (escaped p).length + 1 + t.length ∧ (p = [] ∨ p.getLast? = some backslash)

/-- The string begins with continuation bytes, up to the size. -/
def Lost (str : Bytes) (s : ℕ) : Prop := s < str.length ∧ ∀ b ∈ str.take (s + 1), Tail b

theorem escaped_tails {t : Bytes} (h : ∀ b ∈ t, Tail b) : escaped t = t := by
  refine escaped_plain ?_
  intro b hb
  cases hb' : isSpecial b with
  | false => rfl
  | true => exact absurd (h b hb) (not_tail_special hb')

theorem escaped_layout {t : Bytes} (hc : isSpecial c = true) (ht : ∀ b ∈ t, Tail b) :
    escaped (p ++ c :: (t ++ r)) = escaped p ++ [backslash] ++ c :: (t ++ escaped r) := by
  rw [escaped_append, escaped_special hc, escaped_append, escaped_tails ht, List.append_assoc]
  rfl

/-- Behind the backslash there is the special character, and then continuation bytes. -/
theorem index_layout {t : Bytes} (ht : ∀ b ∈ t, Tail b) :
    (escaped p ++ [backslash] ++ c :: (t ++ escaped r))[(escaped p).length + 1]?.getD 0 = c ∧
      ∀ j, (escaped p).length + 1 < j → j ≤ (escaped p).length + 1 + t.length →
        Tail ((escaped p ++ [backslash] ++ c :: (t ++ escaped r))[j]?.getD 0) := by
  have hlength : (escaped p ++ [backslash]).length = (escaped p).length + 1 := by simp
  constructor
  · rw [List.getElem?_append_right (by omega), hlength, Nat.sub_self]
    rfl
  · intro j hj hle
    obtain ⟨i, rfl⟩ : ∃ i, j = (escaped p).length + 1 + 1 + i := ⟨j - ((escaped p).length + 1 + 1), by omega⟩
    have hi : i < t.length := by omega
    have hindex : (escaped p).length + 1 + 1 + i - ((escaped p).length + 1) = i + 1 := by omega
    rw [List.getElem?_append_right (by omega), hlength, hindex, List.getElem?_cons_succ,
      List.getElem?_append_left hi, List.getElem?_eq_getElem hi]
    exact ht _ (List.getElem_mem hi)

/-- Where the size leaves an escape open, the string is cut inside of the escape. -/
theorem LeavesOpen.cut (h : LeavesOpen str s) :
    s < (escaped str).length ∧ ∃ p, (p = [] ∨ p.getLast? = some backslash) ∧ p <+: str ∧
      ∀ k, back (escaped str) s = some k → k = (escaped p).length + 1 ∧
        (escaped str).take k = escaped p ++ [backslash] := by
  obtain ⟨p, c, t, r, rfl, hc, ht, hs, hend⟩ := h
  rw [escaped_layout hc ht]
  refine ⟨by simp only [List.length_append, List.length_cons, List.length_nil]; omega, p, hend,
    List.prefix_append _ _, ?_⟩
  intro k hk
  obtain ⟨hle, hhead, htails⟩ := back_eq_some hk
  obtain ⟨hchar, htails'⟩ := index_layout (r := r) (c := c) (p := p) ht
  have hsame : k = (escaped p).length + 1 := by
    rcases Nat.lt_trichotomy k ((escaped p).length + 1) with hlt | heq | hgt
    · have htail := htails _ hlt (by omega)
      rw [hchar] at htail
      exact absurd htail (not_tail_special hc)
    · exact heq
    · exact absurd (htails' k hgt (by omega)) hhead
  refine ⟨hsame, ?_⟩
  rw [hsame, List.take_left' (by simp)]

/-- **What `escape` makes of any bytes**: nothing, where it leaves the string, and else the beginning of
the string, escaped, with one backslash too many where an escape is left open. -/
theorem escape_cases (str : Bytes) (hs : s ≠ 0) :
    (escape str s = none ∧ Lost str s) ∨
      (∃ p, escape str s = some (escaped p) ∧ p <+: str ∧ ¬ Lost str s ∧ ¬ LeavesOpen str s) ∨
      ∃ p, escape str s = some (escaped p ++ [backslash]) ∧ LeavesOpen str s := by
  rw [escape_eq_repair]
  have hle := length_le_escaped str
  by_cases hfits : (escaped str).length ≤ s
  · refine .inr (.inl ⟨str, ?_, List.prefix_refl str, fun hlost => ?_, fun hopen => ?_⟩)
    · rw [adjust_size_utf8, if_pos hfits, Option.map_some, List.take_length,
        repair_of_even (trailing_escaped str)]
    · have := hlost.1
      omega
    · have := hopen.cut.1
      omega
  · rw [adjust_size_utf8, if_neg hfits, if_neg hs]
    cases hback : back (escaped str) s with
    | none =>
      have htails := back_eq_none hback
      obtain ⟨hlength, hall⟩ := tails_escaped (n := s + 1) (by omega) fun j hj => htails j (by omega)
      exact .inl ⟨rfl, by omega, hall⟩
    | some k =>
      obtain ⟨hk, hhead, htails⟩ := back_eq_some hback
      rw [Option.map_some]
      have hlost : ¬ Lost str s := by
        intro ⟨hlength, hall⟩
        have hsplit := List.take_append_drop (s + 1) str
        rw [← hsplit, escaped_append, escaped_tails hall] at hhead
        have hk' : k < (str.take (s + 1)).length := by
          rw [List.length_take]
          omega
        rw [List.getElem?_append_left hk', List.getElem?_eq_getElem hk'] at hhead
        exact hhead (hall _ (List.getElem_mem hk'))
      obtain ⟨p, r, hstr, heven | ⟨hodd, c, hc, hspecial⟩⟩ :=
        prefix_escaped (List.take_prefix k (escaped str))
      · -- the cut is in front of a character
        refine .inr (.inl ⟨p, ?_, ⟨r, hstr.symm⟩, hlost, ?_⟩)
        · rw [heven, repair_of_even (trailing_escaped p)]
        · intro hopen
          obtain ⟨-, p', -, -, hcut⟩ := hopen.cut
          have hparity := trailing_backslash p'
          rw [← (hcut k hback).2, heven] at hparity
          have heven' := trailing_escaped p
          omega
      · -- it is inside of an escape
        cases r with
        | nil => cases hc
        | cons d r =>
          cases hc
          have hlayout := escaped_layout (p := p) (t := []) (r := r) hspecial (by simp)
          rw [List.nil_append, List.nil_append, ← hstr] at hlayout
          have hlen : k = (escaped p).length + 1 := by
            have hlength := congrArg List.length hodd
            rw [List.length_take, Nat.min_eq_left (by omega)] at hlength
            simpa using hlength
          have hbehind : ∀ j < s - k, Tail ((escaped r)[j]?.getD 0) := by
            intro j hj
            have htail := htails (k + 1 + j) (by omega) (by omega)
            have hindex : k + 1 + j - (escaped p ++ [backslash]).length = j + 1 := by
              simp only [List.length_append, List.length_cons, List.length_nil]
              omega
            rwa [hlayout, List.getElem?_append_right (by simp; omega), hindex,
              List.getElem?_cons_succ] at htail
          have hroom : s - k ≤ (escaped r).length := by
            rw [hlayout] at hfits
            simp only [List.length_append, List.length_cons, List.length_nil] at hfits
            omega
          obtain ⟨hlength, hall⟩ := tails_escaped hroom hbehind
          have hopen : p = [] ∨ p.getLast? = some backslash → LeavesOpen str s := by
            intro hend
            refine ⟨p, c, r.take (s - k), r.drop (s - k), ?_, hspecial, hall, ?_, hend⟩
            · rw [List.take_append_drop, hstr]
            · rw [List.length_take, Nat.min_eq_left hlength]
              omega
          rw [hodd]
          rcases List.eq_nil_or_concat p with rfl | ⟨q, b, rfl⟩
          · exact .inr (.inr ⟨[], rfl, hopen (.inl rfl)⟩)
          rw [List.concat_eq_append] at hstr hodd hlen hopen ⊢
          obtain ⟨e, he⟩ := escaped_concat q b
          by_cases hb : b = backslash
          · refine .inr (.inr ⟨q ++ [b], ?_, hopen (.inr (by simp [hb]))⟩)
            rw [he, repair_concat, if_neg]
            exact fun hne => hne.2 hb
          · refine .inr (.inl ⟨q ++ [b], ?_, ⟨c :: r, hstr.symm⟩, hlost, ?_⟩)
            · rw [he, repair_of_ne hb]
            · intro hopen'
              obtain ⟨-, p', hend, hprefix, hcut⟩ := hopen'.cut
              have hsame : p' = q ++ [b] :=
                prefix_unique hprefix ⟨c :: r, hstr.symm⟩ (by have := (hcut k hback).1; omega)
              rw [hsame] at hend
              rcases hend with hnil | hlast
              · simp at hnil
              · rw [List.getLast?_concat] at hlast
                exact hb (Option.some.inj hlast)

end Escape

end CentreonBroker.Misc
