import CentreonBroker.Database.Mapping

/-!
# Events as JSON

`broker_json_encode_broker_event` goes through the same table as the outputs to databases. A member
that holds the invalid value of its attribute is left out. Strings are given to `escape_str` as C
strings.
-/

namespace CentreonBroker.Mapping

open Database Misc.Escape Utf8

def doubleQuote : UInt8 := 0x22

/-- The letter of the escape of a character that has one. -/
def escapeLetter (c : UInt8) : Option UInt8 :=
  if c = backslash then some backslash
  else if c = doubleQuote then some doubleQuote
  else if c = 0x09 then some 0x74
  else if c = 0x0D then some 0x72
  else if c = 0x0A then some 0x6E
  else none

/-- `escape_str`. -/
def escape_str : Bytes → Bytes
  | [] => []
  | c :: r =>
    match escapeLetter c with
    | some d => backslash :: d :: escape_str r
    | none => c :: escape_str r

/-- What `c_str()` shows of a string. -/
def cStr (s : Bytes) : Bytes := s.takeWhile (· ≠ 0)

/-- A value, as it is written behind its name. -/
inductive Token where
  | bool (v : Bool)
  | double (v : Floating)
  | number (v : ℤ)
  | quotedNumber (v : ℤ)
  | quoted (text : Bytes)
  deriving DecidableEq

/-- The text of a value. How a `double` is written is the choice of the library for formats. -/
def Token.text (showDouble : Floating → List Char) : Token → List Char
  | bool v => (toString v).toList
  | double v => showDouble v
  | number v => (toString v).toList
  | quotedNumber v => '"' :: (toString v).toList ++ ['"']
  | quoted text => '"' :: chars text ++ ['"']

/-- The two checks for `INT`, `TIME` and `UINT`. -/
def shown (attr : BitVec 32) (isZero isMinusOne : Prop) [Decidable isZero]
    [Decidable isMinusOne] (t : Token) : Option Token :=
  if attr = invalidOnZero then if isZero then none else some t
  else if attr = invalidOnMinusOne then if isMinusOne then none else some t
  else some t

/-- What the `switch` of `broker_json_encode_broker_event` writes, or `none` where it is nothing. -/
def Entry.token {δ : Type} (e : Entry δ) (name : String) (d : δ) : Except Failure (Option Token) :=
  match e.source with
  | .bool get => .ok (some (.bool (get d)))
  | .double get => .ok (some (.double (get d)))
  | .int get => .ok (shown e.attr (get d = 0) (get d = -1) (.number (get d).toInt))
  | .short get => .ok (some (.number (get d).toInt))
  | .string get _ =>
    let t := Token.quoted (escape_str (cStr (get d)))
    .ok (if e.attr = invalidOnZero then if get d = [] then none else some t else some t)
  | .time get => .ok (shown e.attr (get d = 0) (get d = -1) (.quotedNumber (get d)))
  | .uint get => .ok (shown e.attr (get d = 0) (get d = -1) (.number (get d).toNat))
  | .other type => .error (.invalidMapping name type)

/-- One turn of the loop: the name and the value. -/
def Entry.write {δ : Type} (e : Entry δ) (name : String) (d : δ) :
    Except Failure (Option (List Char × Token)) :=
  match e.mapped with
  | none => .ok none
  | some field => (e.token name d).map fun t => t.map fun t => (field, t)

/-- `broker_json_encode_broker_event`. The end is written with two braces, as a format would be. -/
def encodeEvent {δ : Type} (showDouble : Floating → List Char) (type : ℕ)
    (info : Option (EventInfo δ)) (d : δ) : Except Failure (List Char) :=
  match info with
  | none => .error (.noMapping type)
  | some info => do
    let members ← info.mapping.mapM fun e : Entry δ => e.write info.name d
    let head := s!"\x7b \"_type\": {type}, \"category\": {type >>> 16}"
    let element := s!", \"element\": {type &&& 0xffff}"
    return head.toList ++ element.toList ++ (members.reduceOption.flatMap fun (field, t) =>
      [',', ' ', '"'] ++ field ++ ['"', ':'] ++ t.text showDouble) ++ ['}', '}']

/-! ## The turns of the two loops -/

theorem forall₂_of_mapM {α β : Type} {f : α → Except Failure β} {xs : List α} {ys : List β}
    (h : xs.mapM f = .ok ys) : List.Forall₂ (fun x y => f x = .ok y) xs ys := by
  induction xs generalizing ys with
  | nil =>
    rw [List.mapM_nil] at h
    cases h
    exact .nil
  | cons x xs ih =>
    rw [List.mapM_cons] at h
    cases hx : f x with
    | error _ => rw [hx] at h; cases h
    | ok y =>
      cases hxs : xs.mapM f with
      | error _ => rw [hx, hxs] at h; cases h
      | ok zs =>
        rw [hx, hxs] at h
        cases h
        exact .cons hx (ih hxs)

/-- Where no member fails, `operator<<` binds what each turn does. -/
theorem bindEvent_turns {δ : Type} {type : ℕ} {info : EventInfo δ} {d : δ}
    {calls : List (List Char × Call)} (h : bindEvent type (some info) d = .ok calls) :
    ∃ turns, List.Forall₂ (fun (e : Entry δ) o => e.bind info.name d = .ok o) info.mapping turns ∧
      calls = turns.reduceOption := by
  rw [bindEvent] at h
  cases hturns : info.mapping.mapM fun e : Entry δ => e.bind info.name d with
  | error _ => rw [hturns] at h; cases h
  | ok turns =>
    rw [hturns] at h
    cases h
    exact ⟨turns, forall₂_of_mapM hturns, rfl⟩

/-- So does the encoder. -/
theorem encodeEvent_turns {δ : Type} {showDouble : Floating → List Char} {type : ℕ}
    {info : EventInfo δ} {d : δ} {text : List Char}
    (h : encodeEvent showDouble type (some info) d = .ok text) :
    ∃ turns, List.Forall₂ (fun (e : Entry δ) o => e.write info.name d = .ok o) info.mapping turns ∧
      ∃ head : List Char, text = head ++ (turns.reduceOption.flatMap fun (field, t) =>
        [',', ' ', '"'] ++ field ++ ['"', ':'] ++ t.text showDouble) ++ ['}', '}'] := by
  rw [encodeEvent] at h
  cases hturns : info.mapping.mapM fun e : Entry δ => e.write info.name d with
  | error _ => rw [hturns] at h; cases h
  | ok turns =>
    rw [hturns] at h
    cases h
    exact ⟨turns, forall₂_of_mapM hturns, _, rfl⟩

/-! ## Reading a string back -/

/-- The character that the letter of an escape stands for. -/
def unescapeLetter (d : UInt8) : Option UInt8 :=
  if d = backslash then some backslash
  else if d = doubleQuote then some doubleQuote
  else if d = 0x74 then some 0x09
  else if d = 0x72 then some 0x0D
  else if d = 0x6E then some 0x0A
  else none

/-- The string up to its last quote, and what is behind. -/
def readString : Bytes → Option (Bytes × Bytes)
  | [] => none
  | [c] => if c = doubleQuote then some ([], []) else none
  | c :: d :: r =>
    if c = doubleQuote then some ([], d :: r)
    else if c = backslash then do
      let e ← unescapeLetter d
      let (s, rest) ← readString r
      return (e :: s, rest)
    else do
      let (s, rest) ← readString (d :: r)
      return (c :: s, rest)

theorem unescapeLetter_of_escapeLetter {c d : UInt8} (h : escapeLetter c = some d) :
    unescapeLetter d = some c := by
  unfold escapeLetter at h
  split at h
  · cases h; simp [unescapeLetter, *]
  split at h
  · cases h; simp [unescapeLetter, doubleQuote, backslash, *]
  split at h
  · cases h; simp [unescapeLetter, doubleQuote, backslash, *]
  split at h
  · cases h; simp [unescapeLetter, doubleQuote, backslash, *]
  split at h
  · cases h; simp [unescapeLetter, doubleQuote, backslash, *]
  · cases h

theorem ne_of_escapeLetter {c : UInt8} (h : escapeLetter c = none) :
    c ≠ doubleQuote ∧ c ≠ backslash := by
  constructor <;> intro hc <;> subst hc <;> simp [escapeLetter, backslash, doubleQuote] at h

/-- What is written between quotes is read back, whatever stands behind. -/
theorem readString_escape_str (s rest : Bytes) :
    readString (escape_str s ++ doubleQuote :: rest) = some (s, rest) := by
  induction s with
  | nil => cases rest <;> simp [escape_str, readString]
  | cons c s ih =>
    cases hc : escapeLetter c with
    | some d =>
      have hread : readString (backslash :: d :: (escape_str s ++ doubleQuote :: rest)) =
          some (c :: s, rest) := by
        rw [readString, if_neg (by decide), if_pos rfl, unescapeLetter_of_escapeLetter hc, ih]
        rfl
      rw [escape_str, hc]
      exact hread
    | none =>
      obtain ⟨hquote, hbackslash⟩ := ne_of_escapeLetter hc
      rw [escape_str, hc]
      show readString (c :: (escape_str s ++ doubleQuote :: rest)) = _
      -- there is a character behind
      obtain ⟨d, r, hr⟩ : ∃ d r, escape_str s ++ doubleQuote :: rest = d :: r :=
        List.exists_cons_of_ne_nil (by simp)
      rw [hr] at ih ⊢
      rw [readString, if_neg hquote, if_neg hbackslash, ih]
      rfl

theorem cStr_eq_iff {s : Bytes} : cStr s = s ↔ 0 ∉ s := by
  rw [cStr, List.takeWhile_eq_self_iff]
  constructor
  · intro h hzero
    simpa using h 0 hzero
  · intro h b hb
    have hne : b ≠ 0 := fun hzero => h (hzero ▸ hb)
    simpa using hne

/-! ## The two outputs -/

/-- What is written carries the value. -/
def Value.WrittenAs (t : Token) : Value → Prop
  | int v => t = .number v.toInt
  | uint v => t = .number v.toNat
  | time t' => t = .quotedNumber t'
  | string _ s => ∃ text, t = .quoted text ∧
    ∀ rest, readString (text ++ doubleQuote :: rest) = some (s, rest)

/-- The outputs agree about a member: the invalid value is the one that is bound as a null and that
is left out, and any other is carried by both. -/
structure Entry.Agrees {δ : Type} (e : Entry δ) (name : String) (field : List Char) (d : δ)
    (v : Value) : Prop where
  null : e.bind name d = .ok (some (':' :: field, .null)) ↔ e.write name d = .ok none
  omitted : e.write name d = .ok none ↔ v.Invalid e.attr
  bound : ¬ v.Invalid e.attr → ∃ c, e.bind name d = .ok (some (':' :: field, c)) ∧ v.BoundAs c
  written : ¬ v.Invalid e.attr → ∃ t, e.write name d = .ok (some (field, t)) ∧ v.WrittenAs t

/-- The outputs agree about each member that has one of the types with invalid values. -/
def EventInfo.Agrees {δ : Type} (info : EventInfo δ) (d : δ) : Prop :=
  ∀ e ∈ info.mapping, ∀ field ∈ e.mapped, ∀ v ∈ e.source.value d, e.Agrees info.name field d v

/-- The values that both outputs have room for. -/
def Value.Fits (attr : BitVec 32) : Value → Prop
  | int _ => True
  | uint v => ¬ (attr = invalidOnZero ∧ v = 0)
  | time t => (time t).Invalid attr ∨ 0 ≤ t ∧ t < 2 ^ 32
  | string maxLen s => 0 ∉ s ∧ (0 < maxLen → maxLen < s.length →
    ∃ j ≤ maxLen, Boundary s j ∧ (attr = invalidOnZero → 0 < j))

section

variable {δ : Type} {e : Entry δ} {name : String} {field : List Char} {d : δ}

/-- A turn for a member that takes part. -/
theorem agrees_iff (hfield : e.mapped = some field) (v : Value) :
    e.Agrees name field d v ↔
      (e.call name d = .ok .null ↔ e.token name d = .ok none) ∧
      (e.token name d = .ok none ↔ v.Invalid e.attr) ∧
      (¬ v.Invalid e.attr → ∃ c, e.call name d = .ok c ∧ v.BoundAs c) ∧
      (¬ v.Invalid e.attr → ∃ t, e.token name d = .ok (some t) ∧ v.WrittenAs t) := by
  have hbind : ∀ c, e.bind name d = .ok (some (':' :: field, c)) ↔ e.call name d = .ok c := by
    intro c
    rw [Entry.bind, hfield]
    cases e.call name d <;> simp [Except.map]
  have hnone : e.write name d = .ok none ↔ e.token name d = .ok none := by
    rw [Entry.write, hfield]
    cases e.token name d <;> simp [Except.map]
  have hsome : ∀ t, e.write name d = .ok (some (field, t)) ↔ e.token name d = .ok (some t) := by
    intro t
    rw [Entry.write, hfield]
    cases e.token name d <;> simp [Except.map]
  constructor
  · intro h
    obtain ⟨hnull, homitted, hbound, hwritten⟩ := h
    simp only [hbind, hnone, hsome] at hnull homitted hbound hwritten
    exact ⟨hnull, homitted, hbound, hwritten⟩
  · intro h
    constructor
    · rw [hbind, hnone]
      exact h.1
    · rw [hnone]
      exact h.2.1
    · simp only [hbind]
      exact h.2.2.1
    · simp only [hsome]
      exact h.2.2.2

theorem shown_eq_none {attr : BitVec 32} {isZero isMinusOne : Prop} [Decidable isZero]
    [Decidable isMinusOne] {t : Token} :
    shown attr isZero isMinusOne t = none ↔ Flagged attr isZero isMinusOne := by
  unfold shown Flagged
  split
  · rename_i hzero
    subst hzero
    simp [invalidOnMinusOne_ne.symm]
  split
  · rename_i hone
    subst hone
    simp [invalidOnMinusOne_ne]
  · rename_i hzero hone
    simp [hzero, hone]

theorem shown_eq_some {attr : BitVec 32} {isZero isMinusOne : Prop} [Decidable isZero]
    [Decidable isMinusOne] {t : Token} (h : ¬ Flagged attr isZero isMinusOne) :
    shown attr isZero isMinusOne t = some t := by
  obtain ⟨hzero, hone⟩ := not_or.mp h
  unfold shown
  split
  · rename_i hattr
    rw [if_neg]
    simpa using fun hz => hzero ⟨hattr, hz⟩
  split
  · rename_i hattr
    rw [if_neg]
    simpa using fun hm => hone ⟨hattr, hm⟩
  · rfl

theorem Except.ok_inj {ε α : Type} {a b : α} : (Except.ok a : Except ε α) = .ok b ↔ a = b :=
  ⟨Except.ok.inj, congrArg _⟩

/-- The outputs agree about every `INT`. -/
theorem agrees_int (hfield : e.mapped = some field) {get : δ → BitVec 32}
    (hsource : e.source = .int get) : e.Agrees name field d (.int (get d)) := by
  have hcall : e.call name d =
      .ok (checked e.attr (get d = 0) (get d = -1) (.i32 (get d))) := by
    rw [Entry.call, hsource]
  have htoken : e.token name d =
      .ok (shown e.attr (get d = 0) (get d = -1) (.number (get d).toInt)) := by
    rw [Entry.token, hsource]
  rw [agrees_iff hfield, hcall, htoken, Value.Invalid]
  refine ⟨?_, ?_, ?_, ?_⟩
  · rw [Except.ok_inj, Except.ok_inj, checked_eq_null (by simp), shown_eq_none]
  · rw [Except.ok_inj, shown_eq_none]
  · intro h
    exact ⟨_, rfl, checked_eq_self h⟩
  · intro h
    exact ⟨_, congrArg _ (shown_eq_some h), rfl⟩

/-- A zero that is invalid is bound. -/
theorem agrees_uint_iff (hfield : e.mapped = some field) {get : δ → BitVec 32}
    (hsource : e.source = .uint get) :
    e.Agrees name field d (.uint (get d)) ↔ (Value.uint (get d)).Fits e.attr := by
  have hcall : e.call name d =
      .ok (if e.attr = invalidOnMinusOne ∧ get d = -1 then .null else .u32 (get d)) := by
    rw [Entry.call, hsource]
  have htoken : e.token name d =
      .ok (shown e.attr (get d = 0) (get d = -1) (.number (get d).toNat)) := by
    rw [Entry.token, hsource]
  have hnull : e.call name d = .ok .null ↔ e.attr = invalidOnMinusOne ∧ get d = -1 := by
    rw [hcall, Except.ok_inj, ite_eq_left_iff]
    simp
  rw [agrees_iff hfield, hnull, hcall, htoken, Except.ok_inj, shown_eq_none, Value.Fits,
    Value.Invalid]
  constructor
  · intro h hzero
    have hone := h.1.mpr (.inl hzero)
    rw [hzero.1] at hone
    exact absurd hone.1 (by decide)
  · intro hzero
    refine ⟨⟨.inr, fun h => h.resolve_left hzero⟩, Iff.rfl, ?_, ?_⟩
    · intro h
      exact ⟨_, rfl, if_neg fun hone => h (.inr hone)⟩
    · intro h
      exact ⟨_, congrArg _ (shown_eq_some h), rfl⟩

/-- A time is bound as an `uint32_t`. -/
theorem agrees_time_iff (hfield : e.mapped = some field) {get : δ → ℤ}
    (hsource : e.source = .time get) :
    e.Agrees name field d (.time (get d)) ↔ (Value.time (get d)).Fits e.attr := by
  have hcall : e.call name d =
      .ok (checked e.attr (get d = 0) (get d = -1) (.u32 (BitVec.ofInt 32 (get d)))) := by
    rw [Entry.call, hsource]
  have htoken : e.token name d =
      .ok (shown e.attr (get d = 0) (get d = -1) (.quotedNumber (get d))) := by
    rw [Entry.token, hsource]
  have hword : ((BitVec.ofInt 32 (get d)).toNat : ℤ) = get d ↔ 0 ≤ get d ∧ get d < 2 ^ 32 := by
    rw [BitVec.toNat_ofInt]
    omega
  rw [agrees_iff hfield, hcall, htoken, Value.Fits, Value.Invalid]
  constructor
  · intro h
    by_cases hi : Flagged e.attr (get d = 0) (get d = -1)
    · exact .inl hi
    · obtain ⟨c, hc, v, rfl, hv⟩ := h.2.2.1 hi
      rw [Except.ok_inj, checked_eq_self hi] at hc
      cases hc
      exact .inr (hword.mp hv)
  · intro h
    refine ⟨?_, ?_, ?_, ?_⟩
    · rw [Except.ok_inj, Except.ok_inj, checked_eq_null (by simp), shown_eq_none]
    · rw [Except.ok_inj, shown_eq_none]
    · intro hi
      exact ⟨_, congrArg _ (checked_eq_self hi), _, rfl, hword.mpr (h.resolve_left hi)⟩
    · intro hi
      exact ⟨_, congrArg _ (shown_eq_some hi), rfl⟩

/-- What is written of a string carries it when there is no zero in it. -/
theorem writtenAs_string_iff {maxLen : ℕ} {s : Bytes} :
    (Value.string maxLen s).WrittenAs (.quoted (escape_str (cStr s))) ↔ 0 ∉ s := by
  rw [← cStr_eq_iff]
  constructor
  · rintro ⟨text, htext, hread⟩
    cases htext
    have hs := hread []
    rw [readString_escape_str, Option.some_inj] at hs
    exact congrArg Prod.fst hs
  · intro h
    rw [h]
    exact ⟨_, rfl, fun rest => readString_escape_str s rest⟩

/-- A string is not cut down to nothing when its first character has room. -/
theorem cut_eq_nil_iff {p : Prop} {maxLen : ℕ} {s sv : Bytes} (h : Value.Cut maxLen s sv) :
    (p → sv = [] → s = []) ↔ (0 < maxLen → maxLen < s.length →
      ∃ j ≤ maxLen, Boundary s j ∧ (p → 0 < j)) := by
  unfold Value.Cut at h
  split at h
  · rename_i hcut
    obtain ⟨k, hle, hb, hlast, rfl⟩ := h
    have hne : s ≠ [] := List.ne_nil_of_length_pos (by omega)
    constructor
    · intro hp _ _
      refine ⟨k, hle, hb, ?_⟩
      intro hattr
      refine Nat.pos_of_ne_zero ?_
      intro hk
      subst hk
      exact hne (hp hattr (List.take_zero ..))
    · intro hj hattr hnil
      obtain ⟨j, hjle, hjb, hpos⟩ := hj hcut.1 hcut.2
      have hjk := hlast j hjle hjb
      have hj0 := hpos hattr
      rcases List.take_eq_nil_iff.mp hnil with hk | hs
      · omega
      · exact hs
  · rename_i hcut
    subst h
    exact ⟨fun _ hpos hlt => absurd ⟨hpos, hlt⟩ hcut, fun _ _ hnil => hnil⟩

/-- A string is to have no zero in it, and to have a place where it can be cut. -/
theorem agrees_string_iff (hfield : e.mapped = some field) {get : δ → Bytes} {maxLen : ℕ}
    (hsource : e.source = .string get maxLen) :
    e.Agrees name field d (.string maxLen (get d)) ↔
      (Value.string maxLen (get d)).Fits e.attr := by
  have hcall : e.call name d = (stored maxLen (get d) >>= fun sv =>
      .ok (if e.attr = invalidOnZero ∧ sv = [] then .null else .str (chars sv))) := by
    rw [Entry.call, hsource]
    rfl
  have hinvalid : (Value.string maxLen (get d)).Invalid e.attr ↔
      e.attr = invalidOnZero ∧ get d = [] := Iff.rfl
  have htoken : e.token name d = .ok (if e.attr = invalidOnZero ∧ get d = [] then none
      else some (.quoted (escape_str (cStr (get d))))) := by
    rw [Entry.token, hsource, ite_and]
  rw [agrees_iff hfield, hcall, htoken, Value.Fits, hinvalid]
  rcases stored_cases maxLen (get d) with ⟨herror, hcut, hall⟩ | ⟨sv, hsv, hcut⟩
  · rw [herror]
    constructor
    · rintro ⟨-, -, hbound, -⟩
      have hne : get d ≠ [] := List.ne_nil_of_length_pos (by omega)
      obtain ⟨c, hc, -⟩ := hbound fun h => hne h.2
      cases hc
    · rintro ⟨-, hj⟩
      obtain ⟨j, hle, hb, -⟩ := hj hcut.1 hcut.2
      exact absurd hb (hall j hle)
  · rw [hsv, ← cut_eq_nil_iff hcut]
    show (Except.ok _ = .ok _ ↔ _) ∧ _ ∧ (_ → ∃ c, Except.ok _ = .ok c ∧ _) ∧ _ ↔ _
    have hnone : (if e.attr = invalidOnZero ∧ get d = [] then none
        else some (Token.quoted (escape_str (cStr (get d))))) = none ↔
        e.attr = invalidOnZero ∧ get d = [] := by
      rw [ite_eq_left_iff]
      simp
    have hnull : (if e.attr = invalidOnZero ∧ sv = [] then Call.null else .str (chars sv)) =
        .null ↔ e.attr = invalidOnZero ∧ sv = [] := by
      rw [ite_eq_left_iff]
      simp
    rw [Except.ok_inj, Except.ok_inj, hnone, hnull]
    constructor
    · rintro ⟨hsame, -, -, hwritten⟩
      refine ⟨?_, fun hattr hnil => (hsame.mp ⟨hattr, hnil⟩).2⟩
      by_cases hi : e.attr = invalidOnZero ∧ get d = []
      · rw [hi.2]
        exact List.not_mem_nil
      · obtain ⟨t, ht, hcarry⟩ := hwritten hi
        rw [if_neg hi] at ht
        cases ht
        exact writtenAs_string_iff.mp hcarry
    · rintro ⟨hzero, hempty⟩
      have hsame : e.attr = invalidOnZero ∧ sv = [] ↔ e.attr = invalidOnZero ∧ get d = [] := by
        constructor
        · rintro ⟨hattr, hnil⟩
          exact ⟨hattr, hempty hattr hnil⟩
        · rintro ⟨hattr, hnil⟩
          refine ⟨hattr, ?_⟩
          rw [hnil, Value.Cut, if_neg (by simp)] at hcut
          exact hcut
      refine ⟨hsame, Iff.rfl, ?_, ?_⟩
      · intro hi
        exact ⟨_, rfl, sv, if_neg fun h => hi (hsame.mp h), hcut⟩
      · intro hi
        exact ⟨_, congrArg _ (if_neg hi), writtenAs_string_iff.mpr hzero⟩

end

/-- The outputs agree about an event when both have room for each of its values. -/
theorem agrees_iff_fits {δ : Type} (info : EventInfo δ) (d : δ) :
    info.Agrees d ↔
      ∀ e ∈ info.mapping, e.mapped ≠ none → ∀ v ∈ e.source.value d, v.Fits e.attr := by
  have hentry : ∀ e : Entry δ, ∀ field, e.mapped = some field → ∀ v ∈ e.source.value d,
      (e.Agrees info.name field d v ↔ v.Fits e.attr) := by
    intro e field hfield v hv
    cases hsource : e.source with
    | int get =>
      rw [hsource] at hv
      cases hv
      exact ⟨fun _ => trivial, fun _ => agrees_int hfield hsource⟩
    | uint get =>
      rw [hsource] at hv
      cases hv
      exact agrees_uint_iff hfield hsource
    | time get =>
      rw [hsource] at hv
      cases hv
      exact agrees_time_iff hfield hsource
    | string get maxLen =>
      rw [hsource] at hv
      cases hv
      exact agrees_string_iff hfield hsource
    | _ =>
      rw [hsource] at hv
      cases hv
  constructor
  · intro h e he hmapped v hv
    obtain ⟨field, hfield⟩ := Option.ne_none_iff_exists'.mp hmapped
    exact (hentry e field hfield v hv).mp (h e he field hfield v hv)
  · intro h e he field hfield v hv
    refine (hentry e field hfield v hv).mpr (h e he ?_ v hv)
    rw [hfield]
    simp

/-- An `UINT` of zero, for which zero is invalid, is bound and left out. -/
theorem not_agrees : ¬ ∀ (δ : Type) (info : EventInfo δ) (d : δ), info.Agrees d := by
  intro h
  let e : Entry (BitVec 32) := ⟨invalidOnZero, some "service_id".toList, .uint id⟩
  have hagrees := h (BitVec 32) ⟨"comment", [e]⟩ 0 e List.mem_cons_self "service_id".toList rfl
    (.uint 0) rfl
  exact absurd (hagrees.null.mpr rfl) (by decide)

end CentreonBroker.Mapping
