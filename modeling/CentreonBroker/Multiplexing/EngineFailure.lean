import CentreonBroker.Multiplexing.Engine

/-!
# A subscriber that throws

Delivering to one subscriber may throw. What the others get of a running engine then
depends on where it stands: those before it had the event already, and get it again when
it is sent again; those after it wait. And what was behind the event in a list is not
published at all.

`Tally` is a run as the two sides see it. It tells exactly which runs give everyone
everything once.
-/

namespace CentreonBroker.Multiplexing.Engine

open PersistentCache

/--
A subscriber, with the events it was given. Each of its `fuses` is a number of deliveries
that go well before one throws; when there is none left, nothing throws any more.
-/
structure Subscriber (α : Type) where
  received : List α
  fuses : List Nat

/-- `muxer::publish`, whose file may not be there to write. -/
def deliver {α : Type} (e : α) : Subscriber α → Bool × Subscriber α
  | ⟨received, []⟩ => (false, ⟨received ++ [e], []⟩)
  | ⟨received, 0 :: fuses⟩ => (true, ⟨received, fuses⟩)
  | ⟨received, (n + 1) :: fuses⟩ => (false, ⟨received ++ [e], n :: fuses⟩)

variable {α : Type}

/-- A subscriber that never throws. -/
def sound (received : List α) : Subscriber α := ⟨received, []⟩

/-- The subscribers, around the one that may throw. -/
def row (before : List (List α)) (m : Subscriber α) (after : List (List α)) :
    List (Subscriber α) :=
  before.map sound ++ m :: after.map sound

/-- What some subscribers have, with more events. -/
def give (new : List α) (ms : List (List α)) : List (List α) := ms.map (· ++ new)

theorem give_give (xs ys : List α) (ms : List (List α)) :
    give ys (give xs ms) = give (xs ++ ys) ms := by
  simp [give, Function.comp_def]

@[simp] theorem give_nil (ms : List (List α)) : give [] ms = ms := by
  simp [give]

/-! ## What each side is given -/

/-- Events that are pending, and that those before and those after were given. -/
structure Tally (α : Type) where
  kiew : List α
  before : List α
  after : List α
  fuses : List Nat

/-- Sending what is pending. -/
def Tally.send (kiew : List α) : List Nat → Bool × Tally α
  | [] => (false, ⟨[], kiew, kiew, []⟩)
  | i :: fuses =>
    if kiew.length ≤ i then (false, ⟨[], kiew, kiew, (i - kiew.length) :: fuses⟩)
    else (true, ⟨kiew.drop i, kiew.take (i + 1), kiew.take i, fuses⟩)

theorem sendToAll_sound (e : α) (ms : List (List α)) (rest : List (Subscriber α)) :
    sendToAll deliver e (ms.map sound ++ rest) =
      ((sendToAll deliver e rest).1, (give [e] ms).map sound ++ (sendToAll deliver e rest).2) := by
  induction ms with
  | nil => rfl
  | cons m ms ih =>
    rw [List.map_cons, List.cons_append, sendToAll, ih]
    rfl

theorem sendToAll_row {e : α} {before after : List (List α)} {m m' : Subscriber α} {threw : Bool}
    (h : deliver e m = (threw, m')) :
    sendToAll deliver e (row before m after) =
      (threw, row (give [e] before) m' (if threw then after else give [e] after)) := by
  have hafter := sendToAll_sound e after []
  rw [List.append_nil] at hafter
  rw [row, sendToAll_sound, sendToAll, h]
  cases threw with
  | true => rfl
  | false =>
    dsimp only
    rw [hafter, sendToAll, List.append_nil]
    rfl

/-- **What each side is given by one call**, and what stays pending. -/
theorem sendToSubscribers_row (kiew : List α) (before after : List (List α)) (r : List α)
    (fuses : List Nat) :
    sendToSubscribers deliver kiew (row before ⟨r, fuses⟩ after) =
      ((Tally.send kiew fuses).1, (Tally.send kiew fuses).2.kiew,
        row (give (Tally.send kiew fuses).2.before before)
          ⟨r ++ (Tally.send kiew fuses).2.after, (Tally.send kiew fuses).2.fuses⟩
          (give (Tally.send kiew fuses).2.after after)) := by
  induction kiew generalizing before after r fuses with
  | nil =>
    rcases fuses with _ | ⟨i, fuses⟩
    · simp [sendToSubscribers, Tally.send]
    · simp [sendToSubscribers, Tally.send]
  | cons e kiew ih =>
    rcases fuses with _ | ⟨_ | i, fuses⟩
    · rw [sendToSubscribers, sendToAll_row rfl]
      dsimp only
      rw [if_neg Bool.false_ne_true, ih]
      simp [Tally.send, give_give]
    · rw [sendToSubscribers, sendToAll_row rfl]
      simp [Tally.send]
    · rw [sendToSubscribers, sendToAll_row rfl]
      dsimp only
      rw [if_neg Bool.false_ne_true, ih]
      by_cases hi : kiew.length ≤ i
      · simp [Tally.send, give_give, hi]
      · simp [Tally.send, give_give, hi]

/-- One run, and then another one from where it stops. -/
def Tally.andThen (t t' : Tally α) : Tally α :=
  ⟨t'.kiew, t.before ++ t'.before, t.after ++ t'.after, t'.fuses⟩

/-- Publishing a list, as far as nothing throws. -/
def Tally.publish : List α → List α → List Nat → Bool × Tally α
  | [], kiew, fuses => (false, ⟨kiew, [], [], fuses⟩)
  | e :: es, kiew, fuses =>
    let (threw, t) := Tally.send (kiew ++ [e]) fuses
    if threw then (true, t)
    else
      let (threw, t') := Tally.publish es t.kiew t.fuses
      (threw, t.andThen t')

/-- Publishing lists, one after the other. -/
def Tally.run : List (List α) → List α → List Nat → Tally α
  | [], kiew, fuses => ⟨kiew, [], [], fuses⟩
  | es :: calls, kiew, fuses =>
    let t := (Tally.publish es kiew fuses).2
    t.andThen (Tally.run calls t.kiew t.fuses)

section Engine

variable [EventCodec α] (cache_file : Option (Cache α))

/-- A running engine. -/
def running (kiew : List α) (muxers : List (Subscriber α)) : Engine α (Subscriber α) :=
  ⟨kiew, muxers, .write, cache_file⟩

theorem publishOne_row (e : α) (kiew : List α) (before after : List (List α)) (r : List α)
    (fuses : List Nat) :
    publishOne deliver e (running cache_file kiew (row before ⟨r, fuses⟩ after)) =
      ((Tally.send (kiew ++ [e]) fuses).1,
        running cache_file (Tally.send (kiew ++ [e]) fuses).2.kiew
          (row (give (Tally.send (kiew ++ [e]) fuses).2.before before)
            ⟨r ++ (Tally.send (kiew ++ [e]) fuses).2.after, (Tally.send (kiew ++ [e]) fuses).2.fuses⟩
            (give (Tally.send (kiew ++ [e]) fuses).2.after after))) := by
  show send deliver (running cache_file (kiew ++ [e]) _) = _
  rw [send]
  simp only [running, sendToSubscribers_row]

theorem publish_row (es kiew : List α) (before after : List (List α)) (r : List α)
    (fuses : List Nat) :
    publish deliver es (running cache_file kiew (row before ⟨r, fuses⟩ after)) =
      ((Tally.publish es kiew fuses).1,
        running cache_file (Tally.publish es kiew fuses).2.kiew
          (row (give (Tally.publish es kiew fuses).2.before before)
            ⟨r ++ (Tally.publish es kiew fuses).2.after, (Tally.publish es kiew fuses).2.fuses⟩
            (give (Tally.publish es kiew fuses).2.after after))) := by
  induction es generalizing kiew before after r fuses with
  | nil => simp [publish, Tally.publish]
  | cons e es ih =>
    rw [publish, publishOne_row, Tally.publish]
    rcases Tally.send (kiew ++ [e]) fuses with ⟨threw, t⟩
    cases threw with
    | true => rfl
    | false =>
      dsimp only
      rw [ih, if_neg Bool.false_ne_true]
      simp only [Tally.andThen, give_give, List.append_assoc]

/-- **A run is what its tally says.** -/
theorem run_row (fs : Files Name) (calls : List (List α)) (kiew : List α)
    (before after : List (List α)) (r : List α) (fuses : List Nat) :
    (run deliver (calls.map .publish)
        ⟨some (running cache_file kiew (row before ⟨r, fuses⟩ after)), fs⟩).instance_ =
      some (running cache_file (Tally.run calls kiew fuses).kiew
        (row (give (Tally.run calls kiew fuses).before before)
          ⟨r ++ (Tally.run calls kiew fuses).after, (Tally.run calls kiew fuses).fuses⟩
          (give (Tally.run calls kiew fuses).after after))) := by
  induction calls generalizing kiew before after r fuses with
  | nil => simp [run, Tally.run]
  | cons es calls ih =>
    show (run deliver (calls.map .publish)
      ⟨some (publish deliver es (running cache_file kiew (row before ⟨r, fuses⟩ after))).2,
        fs⟩).instance_ = _
    rw [publish_row, ih]
    simp only [Tally.run, Tally.andThen, give_give, List.append_assoc]

end Engine

/-! ## How a call ends -/

variable {es : List α}

theorem Tally.publish_nil_fuses (hes : es ≠ []) (kiew : List α) :
    Tally.publish es kiew [] = (false, ⟨[], kiew ++ es, kiew ++ es, []⟩) := by
  induction es generalizing kiew with
  | nil => exact absurd rfl hes
  | cons e es ih =>
    by_cases h : es = []
    · subst h
      simp [Tally.publish, Tally.send, Tally.andThen]
    · simp [Tally.publish, Tally.send, Tally.andThen, ih h]

theorem Tally.publish_sound {kiew : List α} {i : Nat} (hes : es ≠ [])
    (h : (kiew ++ es).length ≤ i) (fuses : List Nat) :
    Tally.publish es kiew (i :: fuses) =
      (false, ⟨[], kiew ++ es, kiew ++ es, (i - (kiew ++ es).length) :: fuses⟩) := by
  induction es generalizing kiew i with
  | nil => exact absurd rfl hes
  | cons e es ih =>
    have hq : kiew ++ e :: es = (kiew ++ [e]) ++ es := by rw [List.append_assoc]; rfl
    have hall : (kiew ++ [e] ++ es).length = (kiew ++ [e]).length + es.length :=
      List.length_append
    rw [hq] at h ⊢
    obtain ⟨j, rfl⟩ := Nat.exists_eq_add_of_le (show (kiew ++ [e]).length ≤ i by omega)
    by_cases hnil : es = []
    · subst hnil
      simp [Tally.publish, Tally.send, Tally.andThen]
    · have hrest := @ih [] j hnil (by rw [List.nil_append]; omega)
      simp only [Tally.publish, Tally.send, if_pos (Nat.le_add_right _ j), Nat.add_sub_cancel_left,
        hrest, Tally.andThen, if_neg Bool.false_ne_true, List.nil_append, hall, Nat.add_sub_add_left]

/-- A call that throws has pushed the list up to the event that was being published. -/
theorem Tally.publish_threw {kiew : List α} {i : Nat} (hes : es ≠ [])
    (h : i < (kiew ++ es).length) (fuses : List Nat) :
    Tally.publish es kiew (i :: fuses) =
      (true, ⟨((kiew ++ es).take (max (i + 1) (kiew.length + 1))).drop i,
        (kiew ++ es).take (i + 1), (kiew ++ es).take i, fuses⟩) := by
  induction es generalizing kiew i with
  | nil => exact absurd rfl hes
  | cons e es ih =>
    have hq : kiew ++ e :: es = (kiew ++ [e]) ++ es := by rw [List.append_assoc]; rfl
    have hlen : (kiew ++ [e]).length = kiew.length + 1 := List.length_append
    have hall : (kiew ++ [e] ++ es).length = (kiew ++ [e]).length + es.length :=
      List.length_append
    rw [hq] at h ⊢
    by_cases hsend : (kiew ++ [e]).length ≤ i
    · -- this event went well, and the list goes on with nothing pending
      obtain ⟨j, rfl⟩ := Nat.exists_eq_add_of_le hsend
      have hj : j < es.length := by omega
      have hnil : es ≠ [] := List.ne_nil_of_length_pos (Nat.zero_lt_of_lt hj)
      have hrest := @ih [] j hnil hj
      have hmax : max ((kiew ++ [e]).length + j + 1) (kiew.length + 1) =
          (kiew ++ [e]).length + (j + 1) := by omega
      have hmax' : max (j + 1) (([] : List α).length + 1) = j + 1 := by simp
      rw [hmax'] at hrest
      rw [hmax, Nat.add_assoc, List.take_length_add_append, List.take_length_add_append,
        List.drop_length_add_append]
      simp only [Tally.publish, Tally.send, if_pos hsend, Nat.add_sub_cancel_left, hrest,
        Tally.andThen, if_neg Bool.false_ne_true, List.nil_append]
    · have hmax : max (i + 1) (kiew.length + 1) = (kiew ++ [e]).length := by omega
      have hmore : (kiew ++ [e] ++ es).take (i + 1) = (kiew ++ [e]).take (i + 1) :=
        List.take_append_of_le_length (by omega)
      have hless : (kiew ++ [e] ++ es).take i = (kiew ++ [e]).take i :=
        List.take_append_of_le_length (by omega)
      rw [hmax, List.take_left, hmore, hless]
      simp only [Tally.publish, Tally.send, if_neg hsend, if_true]

/-! ## Which runs give everyone everything -/

/--
Every call that throws had pushed all its list, and nothing is pending in the end: `pending`
is what is when a call begins, each call publishes so many events.
-/
def Clears : List Nat → Nat → List Nat → Prop
  | [], pending, _ => pending = 0
  | n :: calls, pending, fuses =>
    if n = 0 then Clears calls pending fuses
    else
      match fuses with
      | [] => Clears calls 0 []
      | i :: fuses =>
        if pending + n ≤ i then Clears calls 0 ((i - (pending + n)) :: fuses)
        else (n = 1 ∨ pending + n = i + 1) ∧ Clears calls (pending + n - i) fuses

theorem clears_zero (calls : List Nat) (pending : Nat) (fuses : List Nat) :
    Clears (0 :: calls) pending fuses ↔ Clears calls pending fuses := by
  cases fuses with
  | nil => exact Iff.rfl
  | cons i fuses => exact Iff.rfl

theorem clears_nil {n : Nat} (hn : n ≠ 0) (calls : List Nat) (pending : Nat) :
    Clears (n :: calls) pending [] ↔ Clears calls 0 [] := by
  simp [Clears, hn]

theorem clears_sound {n pending i : Nat} (hn : n ≠ 0) (h : pending + n ≤ i) (calls fuses : List Nat) :
    Clears (n :: calls) pending (i :: fuses) ↔ Clears calls 0 ((i - (pending + n)) :: fuses) := by
  simp [Clears, hn, h]

theorem clears_threw {n pending i : Nat} (hn : n ≠ 0) (h : i < pending + n) (calls fuses : List Nat) :
    Clears (n :: calls) pending (i :: fuses) ↔
      (n = 1 ∨ pending + n = i + 1) ∧ Clears calls (pending + n - i) fuses := by
  simp [Clears, hn, Nat.not_le_of_lt h]

theorem Tally.publish_nil (kiew : List α) (fuses : List Nat) :
    Tally.publish [] kiew fuses = (false, ⟨kiew, [], [], fuses⟩) := rfl

theorem Tally.length_publish (es kiew : List α) (fuses : List Nat) :
    (Tally.publish es kiew fuses).2.after.length + (Tally.publish es kiew fuses).2.kiew.length ≤
      kiew.length + es.length := by
  by_cases hes : es = []
  · subst hes
    simp [Tally.publish_nil]
  · rcases fuses with _ | ⟨i, fuses⟩
    · rw [Tally.publish_nil_fuses hes]
      simp
    · by_cases hi : (kiew ++ es).length ≤ i
      · rw [Tally.publish_sound hes hi]
        simp
      · rw [Tally.publish_threw hes (Nat.lt_of_not_le hi)]
        simp only [List.length_append] at hi
        simp
        omega

/-- Those after the failing subscriber are never given more than there is. -/
theorem Tally.length_run (calls : List (List α)) (kiew : List α) (fuses : List Nat) :
    (Tally.run calls kiew fuses).after.length ≤ kiew.length + calls.flatten.length := by
  induction calls generalizing kiew fuses with
  | nil => simp [Tally.run]
  | cons es calls ih =>
    have hp := Tally.length_publish es kiew fuses
    have hr := ih (Tally.publish es kiew fuses).2.kiew (Tally.publish es kiew fuses).2.fuses
    simp only [Tally.run, Tally.andThen, List.length_append, List.flatten_cons]
    omega

/-- **Those after the failing subscriber have everything** in the runs that clear what throws. -/
theorem Tally.after_eq_iff (calls : List (List α)) (kiew : List α) (fuses : List Nat) :
    (Tally.run calls kiew fuses).after = kiew ++ calls.flatten ↔
      Clears (calls.map List.length) kiew.length fuses := by
  induction calls generalizing kiew fuses with
  | nil => simp [Tally.run, Clears, eq_comm]
  | cons es calls ih =>
    rw [List.map_cons, List.flatten_cons]
    by_cases hes : es = []
    · subst hes
      rw [List.length_nil, clears_zero, ← ih]
      simp [Tally.run, Tally.publish_nil, Tally.andThen]
    have hn : es.length ≠ 0 := fun h => hes (List.length_eq_zero_iff.mp h)
    rcases fuses with _ | ⟨i, fuses⟩
    · -- what is left is as if nothing had been pending
      have h := ih [] []
      rw [List.nil_append, List.length_nil] at h
      rw [clears_nil hn, ← h]
      simp only [Tally.run, Tally.publish_nil_fuses hes, Tally.andThen, ← List.append_assoc,
        List.append_cancel_left_eq]
    by_cases hi : (kiew ++ es).length ≤ i
    · have h := ih [] ((i - (kiew ++ es).length) :: fuses)
      rw [List.nil_append, List.length_nil] at h
      rw [clears_sound hn (List.length_append ▸ hi), ← List.length_append, ← h]
      simp only [Tally.run, Tally.publish_sound hes hi, Tally.andThen, ← List.append_assoc,
        List.append_cancel_left_eq]
    · have hlt := Nat.lt_of_not_le hi
      rw [clears_threw hn (List.length_append ▸ hlt), ← List.length_append]
      simp only [Tally.run, Tally.publish_threw hes hlt, Tally.andThen, ← List.append_assoc]
      by_cases hall : (kiew ++ es).length ≤ max (i + 1) (kiew.length + 1)
      · -- the list was pushed
        have hor : es.length = 1 ∨ (kiew ++ es).length = i + 1 := by
          rw [List.length_append] at hall hlt ⊢
          omega
        have h := ih ((kiew ++ es).drop i) fuses
        rw [List.length_drop] at h
        rw [List.take_of_length_le hall, ← h, and_iff_right hor]
        conv_lhs => rhs; rw [← List.take_append_drop i (kiew ++ es), List.append_assoc]
        rw [List.append_cancel_left_eq]
      · -- some of it was not, and will not be given
        have hnor : ¬ (es.length = 1 ∨ (kiew ++ es).length = i + 1) := by
          rw [List.length_append] at hall ⊢
          omega
        refine iff_of_false (fun heq => ?_) (fun h => hnor h.1)
        have hlen := congrArg List.length heq
        have hle := Tally.length_run calls
          (((kiew ++ es).take (max (i + 1) (kiew.length + 1))).drop i) fuses
        simp only [List.length_append, List.length_take, List.length_drop] at hlen hle hall hlt
        omega

variable {calls : List (List α)}

theorem Tally.run_nothing (h : calls.flatten = []) (kiew : List α)
    (fuses : List Nat) : Tally.run calls kiew fuses = ⟨kiew, [], [], fuses⟩ := by
  induction calls with
  | nil => rfl
  | cons es calls ih =>
    obtain ⟨hes, hcalls⟩ := List.append_eq_nil_iff.mp h
    subst hes
    rw [Tally.run, Tally.publish_nil]
    dsimp only
    rw [ih hcalls]
    rfl

/-- With no delivery that throws, both sides have everything. -/
theorem Tally.run_nil_fuses (calls : List (List α)) :
    (Tally.run calls [] []).before = calls.flatten := by
  induction calls with
  | nil => rfl
  | cons es calls ih =>
    by_cases hes : es = []
    · subst hes
      rw [Tally.run, Tally.publish_nil]
      exact ih
    · rw [Tally.run, Tally.publish_nil_fuses hes]
      exact congrArg (es ++ ·) ih

/-- Those before the failing subscriber have everything if only the last event throws. -/
theorem Tally.before_eq {i : Nat} (h : calls.flatten.length ≤ i + 1)
    (fuses : List Nat) : (Tally.run calls [] (i :: fuses)).before = calls.flatten := by
  induction calls generalizing i with
  | nil => rfl
  | cons es calls ih =>
    rw [List.flatten_cons, List.length_append] at h
    by_cases hes : es = []
    · subst hes
      rw [Tally.run, Tally.publish_nil]
      exact ih (by simpa using h)
    by_cases hi : ([] ++ es).length ≤ i
    · rw [Tally.run, Tally.publish_sound hes hi]
      rw [List.nil_append] at hi ⊢
      exact congrArg (es ++ ·) (ih (by omega))
    · -- this is the last event, and nothing is published after it
      rw [Tally.run, Tally.publish_threw hes (Nat.lt_of_not_le hi)]
      rw [List.nil_append] at hi ⊢
      have hrest : calls.flatten = [] := List.length_eq_zero_iff.mp (by omega)
      have hall : es.length ≤ i + 1 := by omega
      dsimp only
      rw [Tally.run_nothing hrest, List.flatten_cons, hrest]
      exact congrArg (· ++ []) (List.take_of_length_le hall)

/-- What is pending was not sent to everyone, and is sent again. -/
theorem Tally.mem_before (h : calls.flatten ≠ []) (e : α)
    (kiew : List α) (fuses : List Nat) : e ∈ (Tally.run calls (e :: kiew) fuses).before := by
  induction calls with
  | nil => exact absurd rfl h
  | cons es calls ih =>
    rw [Tally.run]
    by_cases hes : es = []
    · subst hes
      exact List.mem_append_right _ (ih h)
    refine List.mem_append_left _ ?_
    rcases fuses with _ | ⟨i, fuses⟩
    · rw [Tally.publish_nil_fuses hes]
      exact List.mem_cons_self
    · by_cases hi : (e :: kiew ++ es).length ≤ i
      · rw [Tally.publish_sound hes hi]
        exact List.mem_cons_self
      · rw [Tally.publish_threw hes (Nat.lt_of_not_le hi)]
        exact List.mem_cons_self

/-- And they have everything once in no other run. -/
theorem Tally.length_of_before_eq {i : Nat} {fuses : List Nat}
    (hnd : calls.flatten.Nodup) (h : (Tally.run calls [] (i :: fuses)).before = calls.flatten) :
    calls.flatten.length ≤ i + 1 := by
  induction calls generalizing i with
  | nil => exact Nat.zero_le _
  | cons es calls ih =>
    rw [List.flatten_cons] at hnd h ⊢
    have hnd' : calls.flatten.Nodup := (List.nodup_append.mp hnd).2.1
    by_cases hes : es = []
    · subst hes
      exact ih hnd' h
    by_cases hi : ([] ++ es).length ≤ i
    · rw [Tally.run, Tally.publish_sound hes hi] at h
      have hrest := ih hnd' (List.append_cancel_left h)
      rw [List.nil_append] at hi hrest
      rw [List.length_append]
      omega
    · have hlt := Nat.lt_of_not_le hi
      rw [Tally.run, Tally.publish_threw hes hlt] at h
      rw [List.nil_append] at hlt h
      have hmax : max (i + 1) (([] : List α).length + 1) = i + 1 := by simp
      rw [hmax] at h
      by_cases hrest : calls.flatten = []
      · rw [hrest, Tally.run_nothing hrest] at h
        have hlen := congrArg List.length h
        simp only [Tally.andThen, List.append_nil, List.length_take] at hlen
        rw [hrest, List.append_nil]
        omega
      · -- the event that threw is given again
        have hdrop : (es.take (i + 1)).drop i = [es[i]] := by
          rw [List.take_succ_eq_append_getElem hlt, List.drop_left' (by simp; omega)]
        rw [hdrop] at h
        have hmem := Tally.mem_before hrest es[i] [] fuses
        have htake : es[i] ∈ es.take (i + 1) := by
          rw [List.take_succ_eq_append_getElem hlt]
          exact List.mem_append_right _ List.mem_cons_self
        rw [← h] at hnd
        exact absurd rfl ((List.nodup_append.mp hnd).2.2 _ htake _ hmem)

theorem clears_nil_fuses (calls : List Nat) : Clears calls 0 [] := by
  induction calls with
  | nil => rfl
  | cons n calls ih =>
    by_cases hn : n = 0
    · subst hn
      exact (clears_zero _ _ _).mpr ih
    · exact (clears_nil hn _ _).mpr ih

theorem clears_of_sum_le {calls : List Nat} {i : Nat} (h : calls.sum ≤ i) (fuses : List Nat) :
    Clears calls 0 (i :: fuses) := by
  induction calls generalizing i with
  | nil => rfl
  | cons n calls ih =>
    rw [List.sum_cons] at h
    by_cases hn : n = 0
    · subst hn
      exact (clears_zero _ _ _).mpr (ih (by omega))
    · exact (clears_sound hn (by omega) _ _).mpr (ih (by omega))

theorem clears_pending {calls : List Nat} (h : calls.sum = 0) (pending : Nat) (fuses : List Nat) :
    Clears calls pending fuses ↔ pending = 0 := by
  induction calls with
  | nil => exact Iff.rfl
  | cons n calls ih =>
    rw [List.sum_cons] at h
    obtain rfl : n = 0 := by omega
    rw [clears_zero, ih (by omega)]

/-- What throws last leaves its event pending. -/
theorem sum_le_of_clears {calls : List Nat} {i : Nat} {fuses : List Nat}
    (hc : Clears calls 0 (i :: fuses)) (h : calls.sum ≤ i + 1) : calls.sum ≤ i := by
  induction calls generalizing i with
  | nil => exact Nat.zero_le _
  | cons n calls ih =>
    rw [List.sum_cons] at h ⊢
    by_cases hn : n = 0
    · subst hn
      have hrest := ih ((clears_zero _ _ _).mp hc) (by omega)
      omega
    · by_cases hi : 0 + n ≤ i
      · have hrest := ih ((clears_sound hn hi _ _).mp hc) (by omega)
        omega
      · have hrest := ((clears_threw hn (Nat.lt_of_not_le hi) _ _).mp hc).2
        rw [clears_pending (by omega)] at hrest
        omega

theorem give_inj {xs ys : List α} {ms : List (List α)} :
    give xs ms = give ys ms ↔ ms = [] ∨ xs = ys := by
  cases ms with
  | nil => simp [give]
  | cons m ms =>
    refine ⟨fun h => .inr ?_, fun h => ?_⟩
    · exact List.append_cancel_left (List.cons.inj h).1
    · rw [h.resolve_left (List.cons_ne_nil m ms)]

theorem sound_injective : Function.Injective (sound (α := α)) := by
  intro x y h
  exact congrArg Subscriber.received h

theorem row_give_inj {a b x y : List α} {before after : List (List α)} {m m' : Subscriber α} :
    row (give a before) m (give b after) = row (give x before) m' (give y after) ↔
      give a before = give x before ∧ m = m' ∧ give b after = give y after := by
  refine ⟨fun h => ?_, fun ⟨h1, h2, h3⟩ => by rw [h1, h2, h3]⟩
  obtain ⟨h1, h2⟩ := List.append_inj h (by simp [give])
  obtain ⟨h2, h3⟩ := List.cons.inj h2
  exact ⟨List.map_injective_iff.mpr sound_injective h1, h2,
    List.map_injective_iff.mpr sound_injective h3⟩

/-! ## The subscribers of a running engine -/

/--
Nobody else is disturbed: there is nobody else; or the failing subscriber is the first one
and every call that throws had pushed all its list, the last one not throwing; or it is the
last one, and only the last event throws; or nothing does.
-/
def Harmless (before after : List (List α)) (fuses : List Nat) (calls : List (List α)) : Prop :=
  (before = [] ∧ after = []) ∨
  (before = [] ∧ Clears (calls.map List.length) 0 fuses) ∨
  (after = [] ∧ ∀ i ∈ fuses.head?, calls.flatten.length ≤ i + 1) ∨
  ∀ i ∈ fuses.head?, calls.flatten.length ≤ i

variable [EventCodec α]

/-- Everyone but the failing subscriber has the events of the calls, each once and in order. -/
def OthersHave (fs : Files Name) (cache_file : Option (Cache α)) (before after : List (List α))
    (m : Subscriber α) (calls : List (List α)) : Prop :=
  ∃ m', (run deliver (calls.map .publish)
      ⟨some (running cache_file [] (row before m after)), fs⟩).instance_.map Engine.muxers =
    some (row (give calls.flatten before) m' (give calls.flatten after))

theorem othersHave_iff (fs : Files Name) (cache_file : Option (Cache α))
    (before after : List (List α)) (r : List α) (fuses : List Nat) (calls : List (List α)) :
    OthersHave fs cache_file before after ⟨r, fuses⟩ calls ↔
      (before = [] ∨ (Tally.run calls [] fuses).before = calls.flatten) ∧
      (after = [] ∨ (Tally.run calls [] fuses).after = calls.flatten) := by
  rw [OthersHave, run_row]
  simp only [Option.map_some, running, Option.some.injEq, row_give_inj, give_inj, exists_and_left,
    exists_eq_left']

/--
**Who is disturbed by a subscriber that throws.** The others of a running engine have every
event once and in order in the harmless runs, and, when no event is published twice, in no
others.
-/
theorem subscribers_isolated_iff (fs : Files Name) (cache_file : Option (Cache α))
    (before after : List (List α)) (r : List α) (fuses : List Nat) (calls : List (List α)) :
    (Harmless before after fuses calls →
      OthersHave fs cache_file before after ⟨r, fuses⟩ calls) ∧
    (calls.flatten.Nodup → OthersHave fs cache_file before after ⟨r, fuses⟩ calls →
      Harmless before after fuses calls) := by
  have hafter := Tally.after_eq_iff calls [] fuses
  rw [List.nil_append, List.length_nil] at hafter
  have hsum : calls.flatten.length = (calls.map List.length).sum := List.length_flatten
  constructor
  · intro h
    refine (othersHave_iff _ _ _ _ _ _ _).mpr ?_
    rcases h with ⟨hb, ha⟩ | ⟨hb, hc⟩ | ⟨ha, hi⟩ | hi
    · exact ⟨.inl hb, .inl ha⟩
    · exact ⟨.inl hb, .inr (hafter.mpr hc)⟩
    · refine ⟨.inr ?_, .inl ha⟩
      cases fuses with
      | nil => exact Tally.run_nil_fuses calls
      | cons i fuses => exact Tally.before_eq (hi i rfl) fuses
    · cases fuses with
      | nil => exact ⟨.inr (Tally.run_nil_fuses calls), .inr (hafter.mpr (clears_nil_fuses _))⟩
      | cons i fuses =>
        have hle := hi i rfl
        exact ⟨.inr (Tally.before_eq (Nat.le_succ_of_le hle) fuses),
          .inr (hafter.mpr (clears_of_sum_le (hsum ▸ hle) fuses))⟩
  · intro hnd h
    obtain ⟨hb, ha⟩ := (othersHave_iff _ _ _ _ _ _ _).mp h
    rcases hb with hb | hb
    · -- it is the first one
      rcases ha with ha | ha
      · exact .inl ⟨hb, ha⟩
      · exact .inr (.inl ⟨hb, hafter.mp ha⟩)
    · -- it is not, so that nothing but the last event may throw
      cases fuses with
      | nil => exact .inr (.inr (.inr fun _ hi => by cases hi))
      | cons i fuses =>
        have hle := Tally.length_of_before_eq hnd hb
        rcases ha with ha | ha
        · exact .inr (.inr (.inl ⟨ha, fun j hj => by cases hj; exact hle⟩))
        · refine .inr (.inr (.inr fun j hj => ?_))
          cases hj
          exact hsum ▸ sum_le_of_clears (hafter.mp ha) (hsum ▸ hle)

/-- The first subscriber fails once; the second one waits for its event, and has it once. -/
theorem subscribers_isolated_first :
    OthersHave (fun _ => none) none [] [[]] ⟨[], [0]⟩ [[hostStatus 1], [hostStatus 2]] :=
  (subscribers_isolated_iff _ _ _ _ _ _ _).1 (.inr (.inl ⟨rfl, by simp [Clears]⟩))

/-- **A subscriber that has an event gets it again**, when the one after it fails. -/
theorem not_subscribers_isolated :
    ¬ OthersHave (fun _ => none) none [[]] [[]] ⟨[], [0]⟩ [[hostStatus 1], [hostStatus 2]] := by
  intro h
  obtain ⟨hb, -⟩ := (othersHave_iff _ _ _ _ _ _ _).mp h
  have hlen := congrArg List.length (hb.resolve_left (List.cons_ne_nil _ _))
  exact absurd hlen (by simp [Tally.run, Tally.publish, Tally.send, Tally.andThen])

end CentreonBroker.Multiplexing.Engine
