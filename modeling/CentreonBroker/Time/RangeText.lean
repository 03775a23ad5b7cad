import CentreonBroker.Lib.Joined
import CentreonBroker.Time.Timeperiod
import Mathlib.Data.List.Forall2
import Mathlib.Tactic.Cases

/-!
# The text of time ranges

What an item of the text says is two limits, each with the numbers of its hours and of its minutes.
The ranges are put in the list one by one, so that a text whose first item is right and that is
refused for another leaves a part of it there.
-/

namespace CentreonBroker.Time

namespace Timerange

open Decimal

/-! ## The printer -/

def to_string (r : Timerange) : List Char :=
  digits (r.start_time / 3600) ++ ':' :: (digits (r.start_time % 3600 / 60) ++ '-' ::
    (digits (r.end_time / 3600) ++ ':' :: digits (r.end_time % 3600 / 60)))

def build_string_from_timeranges (timeranges : List Timerange) : List Char :=
  timeranges.foldl (fun oss r => (if oss ≠ [] then oss ++ [','] else oss) ++ r.to_string) []

/-! ## What a text says -/

/-- The integer that a text is, of any size. -/
def number (s : List Char) : Option ℤ :=
  let negative := (sign (s.dropWhile isSpace)).1
  let digits := body s
  if digits = [] ∨ digits.any (fun c => !c.isDigit) then none
  else
    let v : ℤ := Nat.ofDigitChars 10 digits 0
    some (if negative then -v else v)

/-- The numbers of an item. -/
structure Limits where
  start_hours : ℤ
  start_minutes : ℤ
  end_hours : ℤ
  end_minutes : ℤ

namespace Limits

def start_seconds (l : Limits) : ℤ := l.start_hours * 3600 + l.start_minutes * 60

def end_seconds (l : Limits) : ℤ := l.end_hours * 3600 + l.end_minutes * 60

/-- Each number can be read in 64 bits, with its sign. -/
def Fit (l : Limits) : Prop :=
  (l.start_hours.natAbs < 2 ^ 64 ∧ l.start_minutes.natAbs < 2 ^ 64) ∧
    l.end_hours.natAbs < 2 ^ 64 ∧ l.end_minutes.natAbs < 2 ^ 64

/-- Both limits are unsigned integers on 64 bits. -/
def InRange (l : Limits) : Prop :=
  (0 ≤ l.start_seconds ∧ l.start_seconds < 2 ^ 64) ∧ 0 ≤ l.end_seconds ∧ l.end_seconds < 2 ^ 64

end Limits

/-- The hours and the minutes of a limit. -/
def clock (s : List Char) : Option (ℤ × ℤ) :=
  (cut ':' s).bind fun p => (number p.1).bind fun hours => (number p.2).map fun minutes =>
    (hours, minutes)

def limits (s : List Char) : Option Limits :=
  (cut '-' s).bind fun p => (clock p.1).bind fun a => (clock p.2).map fun b => ⟨a.1, a.2, b.1, b.2⟩

/-- The range has the limits that are written in the item. -/
def Writes (s : List Char) (r : Timerange) : Prop :=
  ∃ l, limits s = some l ∧ (r.start_time : ℤ) = l.start_seconds ∧ (r.end_time : ℤ) = l.end_seconds

/-- An item that says two limits, of numbers that can be read. -/
def Exact (s : List Char) : Prop := ∃ l, limits s = some l ∧ l.Fit ∧ l.InRange

/-- An item that is refused: it does not say two limits, or one of its numbers is too large. -/
def Refused (s : List Char) : Prop := ∀ l, limits s = some l → ¬ l.Fit

/-- The texts between the commas. There is none in the empty text. -/
def items (text : List Char) : List (List Char) := if text = [] then [] else text.splitOn ','

/-- All of the text is added to the list, or none of it. -/
def AllOrNothing (text : List Char) (timeranges : List Timerange) : Prop :=
  ((build_timeranges_from_string text timeranges).1 = true ∧
      ∃ added, (build_timeranges_from_string text timeranges).2 = added ++ timeranges ∧
        List.Forall₂ Writes (items text) added.reverse) ∨
    (build_timeranges_from_string text timeranges).1 = false ∧
      (build_timeranges_from_string text timeranges).2 = timeranges

/-- The limits are in whole minutes. -/
structure Minutes (r : Timerange) : Prop where
  start_lt : r.start_time < 2 ^ 64
  end_lt : r.end_time < 2 ^ 64
  start_mod : r.start_time % 60 = 0
  end_mod : r.end_time % 60 = 0

/-- What is printed is read again, in some order. -/
def RoundTrip : Prop :=
  ∀ l : List Timerange, (∀ r ∈ l, r.Minutes) →
    ∃ l', build_timeranges_from_string (build_string_from_timeranges l) [] = (true, l') ∧ l'.Perm l

/-- All items are exact, or the first one is refused. -/
def Sound (text : List Char) : Prop :=
  (∀ s ∈ items text, Exact s) ∨ ∃ s rest, items text = s :: rest ∧ Refused s

/-! ## One item -/

/-- An item, as the loop reads it. -/
def readItem (s : List Char) : Option Timerange :=
  (cut '-' s).bind fun p => (build_time_t p.1).bind fun start_time => (build_time_t p.2).map
    fun end_time => ⟨start_time, end_time⟩

theorem buildLoop_cons (s : List Char) (ss : List (List Char)) (l : List Timerange) :
    buildLoop (s :: ss) l =
      match readItem s with
      | none => (false, l)
      | some r => buildLoop ss (r :: l) := by
  rw [buildLoop, readItem]
  cases cut '-' s with
  | none => rfl
  | some p =>
    change (match (build_time_t p.1).bind fun start_time => (build_time_t p.2).bind fun end_time =>
      some (Timerange.mk start_time end_time) with
      | none => (false, l)
      | some r => buildLoop ss (r :: l)) = _
    simp only [Option.bind_some]
    cases build_time_t p.1 with
    | none => rfl
    | some start_time => cases build_time_t p.2 <;> rfl

/-- A number is read when it fits, modulo 2 ^ 64. -/
theorem readUint64_eq (s : List Char) :
    readUint64 s =
      (number s).bind fun v => if v.natAbs < 2 ^ 64 then some (v % 2 ^ 64).toNat else none := by
  rw [readUint64, number, body]
  rcases sign (s.dropWhile isSpace) with ⟨negative, digits⟩
  dsimp only
  by_cases hdigits : digits = [] ∨ digits.any (fun c => !c.isDigit)
  · rw [if_pos hdigits, if_pos hdigits, Option.bind_none]
  · rw [if_neg hdigits, if_neg hdigits, Option.bind_some]
    generalize Nat.ofDigitChars 10 digits 0 = v
    by_cases hv : 2 ^ 64 ≤ v
    · have hfit : ¬ (if negative = true then -(v : ℤ) else v).natAbs < 2 ^ 64 := by
        cases negative <;> simp <;> omega
      rw [if_pos hv, if_neg hfit]
    · have hfit : (if negative = true then -(v : ℤ) else v).natAbs < 2 ^ 64 := by
        cases negative <;> simp <;> omega
      rw [if_neg hv, if_pos hfit]
      cases negative <;> simp <;> omega

/-- What wraps around does so in the sum. -/
theorem seconds_emod (hours minutes : ℤ) {n : ℕ} (hn : n ≠ 0) :
    ((hours % n).toNat * 3600 + (minutes % n).toNat * 60) % n =
      ((hours * 3600 + minutes * 60) % n).toNat := by
  have hz : (n : ℤ) ≠ 0 := Int.natCast_ne_zero.mpr hn
  have hh := Int.emod_nonneg hours hz
  have hm := Int.emod_nonneg minutes hz
  have hs := Int.emod_nonneg (hours * 3600 + minutes * 60) hz
  apply Int.ofNat.inj
  change (((hours % n).toNat * 3600 + (minutes % n).toNat * 60 : ℕ) % n : ℤ) =
    (((hours * 3600 + minutes * 60) % n).toNat : ℤ)
  push_cast
  rw [Int.toNat_of_nonneg hh, Int.toNat_of_nonneg hm, Int.toNat_of_nonneg hs, Int.add_emod,
    Int.mul_emod, Int.emod_emod, ← Int.mul_emod, Int.mul_emod (minutes % n), Int.emod_emod,
    ← Int.mul_emod, ← Int.add_emod]

theorem build_time_t_eq (s : List Char) :
    build_time_t s =
      (clock s).bind fun c =>
        if c.1.natAbs < 2 ^ 64 ∧ c.2.natAbs < 2 ^ 64 then
          some ((c.1 * 3600 + c.2 * 60) % 2 ^ 64).toNat
        else none := by
  rw [build_time_t, clock]
  rcases cut ':' s with _ | ⟨a, b⟩
  · rfl
  · simp only [Option.bind_eq_bind, Option.bind_some, Option.pure_def, readUint64_eq]
    cases number a with
    | none => simp only [Option.bind_none]
    | some hours =>
      cases number b with
      | none =>
        simp only [Option.bind_some, Option.bind_none, Option.map_none, Option.bind_fun_none]
      | some minutes =>
        simp only [Option.bind_some, Option.map_some]
        by_cases hh : hours.natAbs < 2 ^ 64
        · by_cases hm : minutes.natAbs < 2 ^ 64
          · rw [if_pos hh, if_pos hm, if_pos ⟨hh, hm⟩, Option.bind_some, Option.bind_some]
            exact congrArg some (seconds_emod hours minutes (Nat.two_pow_pos 64).ne')
          · rw [if_pos hh, if_neg hm, if_neg fun h : _ ∧ _ => hm h.2, Option.bind_some,
              Option.bind_none]
        · rw [if_neg hh, if_neg fun h : _ ∧ _ => hh h.1, Option.bind_none]

/-- The limits modulo 2 ^ 64, as they are stored. -/
def Limits.wrapped (l : Limits) : Timerange :=
  ⟨(l.start_seconds % 2 ^ 64).toNat, (l.end_seconds % 2 ^ 64).toNat⟩

/-- An item is read when its numbers fit. -/
theorem readItem_eq_some (s : List Char) (r : Timerange) :
    readItem s = some r ↔ ∃ l, limits s = some l ∧ l.Fit ∧ r = l.wrapped := by
  rw [readItem, limits]
  rcases cut '-' s with _ | ⟨a, b⟩
  · simp only [Option.bind_none, reduceCtorEq, false_and, exists_false]
  · simp only [Option.bind_some, build_time_t_eq]
    rcases clock a with _ | ca
    · simp only [Option.bind_none, reduceCtorEq, false_and, exists_false]
    · rcases clock b with _ | cb
      · simp only [Option.bind_some, Option.bind_none, Option.map_none, Option.bind_fun_none,
          reduceCtorEq, false_and, exists_false]
      · simp only [Option.bind_some, Option.map_some, Option.some.injEq, exists_eq_left']
        constructor
        · intro h
          split at h
          · rename_i ha
            rw [Option.bind_some] at h
            split at h
            · rename_i hb
              exact ⟨⟨ha, hb⟩, (Option.some.inj h).symm⟩
            · cases h
          · cases h
        · rintro ⟨⟨ha, hb⟩, rfl⟩
          rw [if_pos ha, if_pos hb]
          rfl

theorem readItem_eq_none (s : List Char) : readItem s = none ↔ Refused s := by
  constructor
  · intro hnone l hl hfit
    have hsome := (readItem_eq_some s l.wrapped).mpr ⟨l, hl, hfit, rfl⟩
    rw [hnone] at hsome
    cases hsome
  · intro hrefused
    cases hread : readItem s with
    | none => rfl
    | some r =>
      obtain ⟨l, hl, hfit, -⟩ := (readItem_eq_some s r).mp hread
      exact absurd hfit (hrefused l hl)

/-- The limits that are stored are those that are written when they did not wrap around. -/
theorem Limits.wrapped_eq (l : Limits) :
    ((l.wrapped.start_time : ℤ) = l.start_seconds ∧ (l.wrapped.end_time : ℤ) = l.end_seconds) ↔
      l.InRange := by
  have hwrap : ∀ v : ℤ, ((v % 2 ^ 64).toNat : ℤ) = v ↔ 0 ≤ v ∧ v < 2 ^ 64 := by
    intro v
    rw [Int.toNat_of_nonneg (Int.emod_nonneg v (Int.ne_of_gt (Int.pow_pos (by omega))))]
    constructor
    · intro h
      rw [← h]
      exact ⟨Int.emod_nonneg v (Int.ne_of_gt (Int.pow_pos (by omega))),
        Int.emod_lt_of_pos v (Int.pow_pos (by omega))⟩
    · intro h
      exact Int.emod_eq_of_lt h.1 h.2
  exact and_congr (hwrap l.start_seconds) (hwrap l.end_seconds)

/-- A range that was read has the limits of its item when they are exact. -/
theorem writes_iff {s : List Char} {r : Timerange} (h : readItem s = some r) :
    Writes s r ↔ Exact s := by
  obtain ⟨l, hl, hfit, rfl⟩ := (readItem_eq_some s r).mp h
  constructor
  · rintro ⟨l', hl', hstart, hend⟩
    obtain rfl : l = l' := Option.some.inj (hl.symm.trans hl')
    exact ⟨l, hl, hfit, l.wrapped_eq.mp ⟨hstart, hend⟩⟩
  · rintro ⟨l', hl', -, hrange⟩
    obtain rfl : l = l' := Option.some.inj (hl.symm.trans hl')
    exact ⟨l, hl, l.wrapped_eq.mpr hrange⟩

/-! ## All items -/

/-- The ranges that the items are read as. -/
abbrev Reads : List (List Char) → List Timerange → Prop :=
  List.Forall₂ fun s r => readItem s = some r

/-- The loop reads all items, or those before one that is refused. -/
theorem buildLoop_cases (ss : List (List Char)) (l : List Timerange) :
    (∃ rs, Reads ss rs ∧ buildLoop ss l = (true, rs.reverse ++ l)) ∨
      ∃ pre s post rs, ss = pre ++ s :: post ∧ Reads pre rs ∧ Refused s ∧
        buildLoop ss l = (false, rs.reverse ++ l) := by
  induction ss generalizing l with
  | nil => exact .inl ⟨[], .nil, rfl⟩
  | cons s ss ih =>
    rw [buildLoop_cons]
    cases hread : readItem s with
    | none => exact .inr ⟨[], s, ss, [], rfl, .nil, (readItem_eq_none s).mp hread, rfl⟩
    | some r =>
      rcases ih (r :: l) with ⟨rs, hrs, heq⟩ | ⟨pre, s', post, rs, rfl, hrs, hrefused, heq⟩
      · refine .inl ⟨r :: rs, .cons hread hrs, ?_⟩
        rw [List.reverse_cons, List.append_assoc]
        exact heq
      · refine .inr ⟨s :: pre, s', post, r :: rs, rfl, .cons hread hrs, hrefused, ?_⟩
        rw [List.reverse_cons, List.append_assoc]
        exact heq

theorem build_cases (text : List Char) (l : List Timerange) :
    (∃ rs, Reads (items text) rs ∧
        build_timeranges_from_string text l = (true, rs.reverse ++ l)) ∨
      ∃ pre s post rs, items text = pre ++ s :: post ∧ Reads pre rs ∧ Refused s ∧
        build_timeranges_from_string text l = (false, rs.reverse ++ l) := by
  rw [build_timeranges_from_string, items]
  split
  · exact .inl ⟨[], .nil, rfl⟩
  · exact buildLoop_cases _ l

theorem writes_all_iff {ss : List (List Char)} {rs : List Timerange} (h : Reads ss rs) :
    List.Forall₂ Writes ss rs ↔ ∀ s ∈ ss, Exact s := by
  induction h with
  | nil =>
    refine iff_of_true .nil ?_
    intro s hs
    cases hs
  | cons hread _ ih =>
    rw [List.forall₂_cons, ih, writes_iff hread, List.forall_mem_cons]

theorem not_refused_of_reads {ss : List (List Char)} {rs : List Timerange} (h : Reads ss rs)
    {s : List Char} (hs : s ∈ ss) : ¬ Refused s := by
  intro hrefused
  have hnone := (readItem_eq_none s).mpr hrefused
  induction h with
  | nil => cases hs
  | cons hread _ ih =>
    rcases List.mem_cons.mp hs with rfl | hmem
    · rw [hnone] at hread
      cases hread
    · exact ih hmem

theorem not_refused_of_exact {s : List Char} (h : Exact s) : ¬ Refused s := by
  obtain ⟨l, hl, hfit, -⟩ := h
  intro hrefused
  exact hrefused l hl hfit

/-- **The text is added as a whole or not at all exactly when it is sound.** -/
theorem allOrNothing_iff (text : List Char) (timeranges : List Timerange) :
    AllOrNothing text timeranges ↔ Sound text := by
  rw [AllOrNothing, Sound]
  rcases build_cases text timeranges with
    ⟨rs, hrs, heq⟩ | ⟨pre, s, post, rs, hitems, hrs, hrefused, heq⟩
  · rw [heq]
    constructor
    · rintro (⟨-, added, hadded, hwrites⟩ | ⟨hfalse, -⟩)
      · obtain rfl := List.append_cancel_right hadded
        rw [List.reverse_reverse] at hwrites
        exact .inl ((writes_all_iff hrs).mp hwrites)
      · cases hfalse
    · rintro (hexact | ⟨s, rest, hitems, hrefused⟩)
      · refine .inl ⟨rfl, rs.reverse, rfl, ?_⟩
        rw [List.reverse_reverse]
        exact (writes_all_iff hrs).mpr hexact
      · refine absurd hrefused (not_refused_of_reads hrs ?_)
        rw [hitems]
        exact List.mem_cons_self
  · rw [heq, hitems]
    constructor
    · rintro (⟨htrue, -⟩ | ⟨-, hkept⟩)
      · cases htrue
      · -- nothing was read before the item that is refused
        have hrs' : rs = [] := by
          have hlength := congrArg List.length hkept
          rw [List.length_append, List.length_reverse] at hlength
          exact List.eq_nil_of_length_eq_zero (by omega)
        subst hrs'
        cases hrs
        exact .inr ⟨s, post, rfl, hrefused⟩
    · rintro (hexact | ⟨s', rest, hfirst, hrefused'⟩)
      · have hs := hexact s (List.mem_append_right _ List.mem_cons_self)
        exact absurd hrefused (not_refused_of_exact hs)
      · refine .inr ⟨rfl, ?_⟩
        cases hrs with
        | nil => rfl
        | cons hread hrest =>
          obtain ⟨rfl, -⟩ := List.cons.inj hfirst
          refine absurd hrefused' (not_refused_of_reads (.cons hread hrest) ?_)
          exact List.mem_cons_self

/-! ## What is printed -/

theorem cut_append {c : Char} {a : List Char} (h : c ∉ a) (rest : List Char) :
    cut c (a ++ c :: rest) = some (a, rest) := by
  have hne : ∀ x ∈ a, decide (x ≠ c) = true := by
    intro x hx
    rw [decide_eq_true_eq]
    rintro rfl
    exact h hx
  rw [cut, if_pos (List.mem_append_right a List.mem_cons_self), List.takeWhile_append_of_pos hne,
    List.dropWhile_append_of_pos hne, List.takeWhile_cons_of_neg (by simp),
    List.dropWhile_cons_of_neg (by simp), List.append_nil, List.tail_cons]

theorem not_mem_digits {c : Char} (hc : c.isDigit = false) (k : ℕ) : c ∉ digits k := by
  intro hmem
  rw [isDigit_of_mem_digits hmem] at hc
  cases hc

theorem number_digits (k : ℕ) : number (digits k) = some (k : ℤ) := by
  have hbody : body (digits k) = digits k := body_append [] fun c hc => isDigit_of_mem_digits hc
  have hsign : (sign ((digits k).dropWhile isSpace)).1 = false := by
    cases hd : digits k with
    | nil => rfl
    | cons c s =>
      have hc : c.isDigit := isDigit_of_mem_digits (k := k) (by rw [hd]; exact List.mem_cons_self)
      rw [List.dropWhile_cons_of_neg (by rw [not_space_of_digit hc]; exact Bool.false_ne_true),
        sign, if_neg (not_sign_of_digit hc).1, if_neg (not_sign_of_digit hc).2]
  have hdigits : ¬ (digits k = [] ∨ (digits k).any (fun c => !c.isDigit) = true) := by
    rintro (hnil | hany)
    · exact digits_ne_nil k hnil
    · obtain ⟨c, hc, hnot⟩ := List.any_eq_true.mp hany
      rw [isDigit_of_mem_digits hc] at hnot
      cases hnot
  rw [number, hbody, hsign]
  dsimp only
  rw [if_neg hdigits, if_neg Bool.false_ne_true]
  exact congrArg (fun n : ℕ => some (n : ℤ)) Nat.ofDigitChars_ten_toDigits

/-- A limit, as it is printed. -/
theorem clock_digits (hours minutes : ℕ) :
    clock (digits hours ++ ':' :: digits minutes) = some ((hours : ℤ), (minutes : ℤ)) := by
  rw [clock, cut_append (not_mem_digits rfl hours)]
  simp only [Option.bind_some, number_digits, Option.map_some]

theorem limits_to_string (r : Timerange) :
    limits r.to_string =
      some ⟨(r.start_time / 3600 : ℕ), (r.start_time % 3600 / 60 : ℕ), (r.end_time / 3600 : ℕ),
        (r.end_time % 3600 / 60 : ℕ)⟩ := by
  have hdash : '-' ∉ digits (r.start_time / 3600) ++ ':' :: digits (r.start_time % 3600 / 60) := by
    rw [List.mem_append, List.mem_cons, not_or, not_or]
    exact ⟨not_mem_digits rfl _, by decide, not_mem_digits rfl _⟩
  rw [limits, to_string]
  have hsplit := cut_append hdash
    (digits (r.end_time / 3600) ++ ':' :: digits (r.end_time % 3600 / 60))
  rw [List.append_assoc, List.cons_append] at hsplit
  rw [hsplit]
  simp only [Option.bind_some, clock_digits, Option.map_some]

/-- A range in whole minutes is read as it was. -/
theorem readItem_to_string {r : Timerange} (h : r.Minutes) : readItem r.to_string = some r := by
  have hstart := h.start_lt
  have hend := h.end_lt
  have hstart' := h.start_mod
  have hend' := h.end_mod
  refine (readItem_eq_some _ r).mpr ⟨_, limits_to_string r, ?_, ?_⟩
  · refine ⟨⟨?_, ?_⟩, ?_, ?_⟩
    all_goals
      simp only [Int.natAbs_natCast]
      omega
  · have hwhole : ∀ v : ℕ, v % 60 = 0 → v < 2 ^ 64 →
        ((((v / 3600 : ℕ) : ℤ) * 3600 + ((v % 3600 / 60 : ℕ) : ℤ) * 60) % 2 ^ 64).toNat = v := by
      intro v hmod hlt
      have heq : ((v / 3600 : ℕ) : ℤ) * 3600 + ((v % 3600 / 60 : ℕ) : ℤ) * 60 = v := by omega
      rw [heq, Int.emod_eq_of_lt (Int.natCast_nonneg v) (by omega), Int.toNat_natCast]
    rw [Limits.wrapped, Limits.start_seconds, Limits.end_seconds, hwhole _ hstart' hstart,
      hwhole _ hend' hend]

theorem comma_not_mem (r : Timerange) : ',' ∉ r.to_string := by
  simp only [to_string, List.mem_append, List.mem_cons, not_or]
  exact ⟨not_mem_digits rfl _, by decide, not_mem_digits rfl _, by decide, not_mem_digits rfl _,
    by decide, not_mem_digits rfl _⟩

theorem to_string_ne_nil (r : Timerange) : r.to_string ≠ [] := by
  intro h
  exact digits_ne_nil _ (List.append_eq_nil_iff.mp h).1

/-- The commas are between the ranges. -/
theorem items_build_string (l : List Timerange) :
    items (build_string_from_timeranges l) = l.map to_string := by
  have hne : ∀ r ∈ l, to_string r ≠ [] := fun r _ => to_string_ne_nil r
  have hcomma : ∀ r ∈ l, ',' ∉ to_string r := fun r _ => comma_not_mem r
  change items (Joined.join ',' to_string [] l) = l.map to_string
  by_cases hl : l = []
  · rw [hl]
    rfl
  · rw [items, if_neg (Joined.join_ne_nil hne hl), Joined.splitOn_join hne hcomma hl]

/-- The ranges are read in the other order, in front of those that are there. -/
theorem build_print {l : List Timerange} (h : ∀ r ∈ l, r.Minutes) (timeranges : List Timerange) :
    build_timeranges_from_string (build_string_from_timeranges l) timeranges =
      (true, l.reverse ++ timeranges) := by
  have hreads : Reads (l.map to_string) l := by
    rw [Reads, List.forall₂_map_left_iff, List.forall₂_same]
    intro r hr
    exact readItem_to_string (h r hr)
  rcases build_cases (build_string_from_timeranges l) timeranges with
    ⟨rs, hrs, heq⟩ | ⟨pre, s, post, rs, hitems, -, hrefused, -⟩
  · rw [items_build_string] at hrs
    obtain rfl : rs = l := by
      refine List.right_unique_forall₂' ?_ hrs hreads
      intro s r r' hr hr'
      exact Option.some.inj (hr.symm.trans hr')
    exact heq
  · rw [items_build_string] at hitems
    refine absurd hrefused (not_refused_of_reads hreads ?_)
    rw [hitems]
    exact List.mem_append_right _ List.mem_cons_self

theorem roundTrip : RoundTrip := by
  intro l h
  refine ⟨l.reverse, ?_, l.reverse_perm⟩
  rw [build_print h, List.append_nil]

end Timerange

namespace Timeperiod

open Timerange

/-- A day that keeps its ranges when the text is rejected. -/
def Keeps (text : List Char) (day : ℕ) (tp : Timeperiod) : Prop :=
  (tp.set_timerange text day).1 = false → (tp.set_timerange text day).2 = tp

theorem keeps_of_allOrNothing {text : List Char} {day : ℕ} {tp : Timeperiod}
    (h : AllOrNothing text (tp.timeranges day)) : tp.Keeps text day := by
  intro hfalse
  rcases h with ⟨htrue, -⟩ | ⟨-, hkept⟩
  · exact absurd (hfalse.symm.trans htrue) Bool.false_ne_true
  · change Timeperiod.mk (Function.update tp.timeranges day
      (build_timeranges_from_string text (tp.timeranges day)).2) = tp
    rw [hkept, Function.update_eq_self]

/-- **The text of the time ranges is all or nothing exactly when it is sound.** What is printed is
read again. -/
theorem all_or_nothing_iff (text : List Char) (timeranges : List Timerange) :
    AllOrNothing text timeranges ∧
        (∀ (tp : Timeperiod) (day : ℕ), tp.timeranges day = timeranges → tp.Keeps text day) ∧
        RoundTrip ↔
      Sound text := by
  rw [← allOrNothing_iff text timeranges]
  constructor
  · intro h
    exact h.1
  · intro h
    refine ⟨h, ?_, roundTrip⟩
    rintro tp day rfl
    exact keeps_of_allOrNothing h

/-- The first range is right, and the second has no dash. The day keeps the first one. -/
theorem not_all_or_nothing :
    let text := "08:00-12:00,13:00".toList
    ¬ AllOrNothing text [] ∧ ¬ (Timeperiod.mk fun _ => []).Keeps text 0 := by
  intro text
  have hbuild : build_timeranges_from_string text [] = (false, [⟨28800, 43200⟩]) := by
    decide +kernel
  constructor
  · rw [AllOrNothing, hbuild]
    rintro (⟨htrue, -⟩ | ⟨-, hkept⟩)
    · cases htrue
    · cases hkept
  · intro hkeeps
    have hset : (Timeperiod.mk fun _ => []).set_timerange text 0 =
        (false, ⟨Function.update (fun _ => []) 0 [⟨28800, 43200⟩]⟩) := by
      rw [set_timerange, hbuild]
    rw [Keeps, hset] at hkeeps
    have hday := congrArg (fun tp : Timeperiod => tp.timeranges 0) (hkeeps rfl)
    cases hday

end Timeperiod

end CentreonBroker.Time
