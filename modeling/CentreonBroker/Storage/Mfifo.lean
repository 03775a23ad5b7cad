import Mathlib

/-!
# The queue of several sources

`misc::mfifo` has one queue of events, and a timeline of booleans for each source. An event
carries a pointer to its boolean, which is set once the event is processed; what a source
may drop is counted from the front of its timeline.

A slot of a timeline has an address. One that is freed can be taken again, so that a pointer
kept too long would lead to the slot of another event. Counters are integers with no bound.
-/

namespace CentreonBroker.Storage

/-- A tuple of the queue. Its rank among the events of its source is not in the code. -/
structure Element (T : Type) (N : ℕ) where
  data : T
  source : Fin N
  flag : ℕ
  rank : ℕ

/-- A slot of a timeline: its address, and the boolean. -/
abbrev Slot := ℕ × Bool

structure Mfifo (T : Type) (N : ℕ) where
  events : List (Element T N)
  timeline : Fin N → List Slot
  ack : Fin N → ℤ
  pending_elements : ℤ

namespace Mfifo

variable {T : Type} {N : ℕ}

/-- The constructor. It leaves `_ack` as the memory was. -/
def new (ack : Fin N → ℤ) : Mfifo T N := ⟨[], fun _ => [], ack, 0⟩

/-- `first_events`. -/
def first_events (q : Mfifo T N) : List (Element T N) × Mfifo T N :=
  (q.events, { q with events := [] })

/-- `push`. The new slot is at an address that the memory has free. -/
def push (idx : Fin N) (e : T) (rank address : ℕ) (q : Mfifo T N) : ℤ × Mfifo T N :=
  (q.ack idx,
    { events := q.events ++ [⟨e, idx, address, rank⟩]
      timeline := Function.update q.timeline idx (q.timeline idx ++ [(address, false)])
      ack := Function.update q.ack idx 0
      pending_elements := q.pending_elements + 1 })

/-- `get_acks`. -/
def get_acks (idx : Fin N) (q : Mfifo T N) : ℤ × Mfifo T N :=
  (q.ack idx, { q with ack := Function.update q.ack idx 0 })

/-- How many slots `clean` takes from the front of a timeline. -/
def cleanCount (idx : Fin N) (q : Mfifo T N) : ℕ := ((q.timeline idx).takeWhile Prod.snd).length

/-- `clean`. -/
def clean (idx : Fin N) (q : Mfifo T N) : Mfifo T N :=
  { q with
    timeline := Function.update q.timeline idx ((q.timeline idx).dropWhile Prod.snd)
    ack := Function.update q.ack idx (q.ack idx + q.cleanCount idx)
    pending_elements := q.pending_elements - q.cleanCount idx }

/-- `*flag = true`, wherever the slot at this address is. -/
def setTrue (flag : ℕ) (q : Mfifo T N) : Mfifo T N :=
  { q with timeline := fun i => (q.timeline i).map fun s => if s.1 = flag then (s.1, true) else s }

end Mfifo

/-! ## Sources, and what processes the events -/

/-- The queue, the events that were taken and not processed yet, and what happened so far. -/
structure Sources (T : Type) (N : ℕ) where
  fifo : Mfifo T N
  taken : List (Element T N)
  /-- For each event that a source pushed, whether it is processed. -/
  pushed : Fin N → List Bool
  /-- The sum of what `push` and `get_acks` returned to a source. -/
  returned : Fin N → ℤ
  /-- How many slots `clean` removed from the front of a timeline. -/
  removed : Fin N → ℕ

inductive Op (T : Type) (N : ℕ) where
  | push (idx : Fin N) (e : T) (address : ℕ)
  | first_events
  /-- The boolean of one of the events that were taken is set. -/
  | process (k : ℕ)
  | clean (idx : Fin N)
  | get_acks (idx : Fin N)

namespace Sources

variable {T : Type} {N : ℕ}

def start (ack : Fin N → ℤ) : Sources T N :=
  ⟨Mfifo.new ack, [], fun _ => [], fun _ => 0, fun _ => 0⟩

def push (idx : Fin N) (e : T) (address : ℕ) (w : Sources T N) : Sources T N :=
  let (acks, fifo) := w.fifo.push idx e (w.pushed idx).length address
  { w with
    fifo := fifo
    pushed := Function.update w.pushed idx (w.pushed idx ++ [false])
    returned := Function.update w.returned idx (w.returned idx + acks) }

def first_events (w : Sources T N) : Sources T N :=
  let (events, fifo) := w.fifo.first_events
  { w with fifo := fifo, taken := w.taken ++ events }

/-- The boolean of an event is set. -/
def setFlag (el : Element T N) (w : Sources T N) : Sources T N :=
  { w with
    fifo := w.fifo.setTrue el.flag
    pushed := Function.update w.pushed el.source ((w.pushed el.source).set el.rank true) }

def clean (idx : Fin N) (w : Sources T N) : Sources T N :=
  { w with
    fifo := w.fifo.clean idx
    removed := Function.update w.removed idx (w.removed idx + w.fifo.cleanCount idx) }

def get_acks (idx : Fin N) (w : Sources T N) : Sources T N :=
  let (acks, fifo) := w.fifo.get_acks idx
  { w with fifo := fifo, returned := Function.update w.returned idx (w.returned idx + acks) }

/-- A step, if there is one: the address is free, and the event was taken. -/
def step (w : Sources T N) : Op T N → Option (Sources T N)
  | .push idx e address =>
    if ∃ j, address ∈ (w.fifo.timeline j).map Prod.fst then none else some (w.push idx e address)
  | .first_events => some w.first_events
  | .process k => w.taken[k]?.map fun el => setFlag el { w with taken := w.taken.eraseIdx k }
  | .clean idx => some (w.clean idx)
  | .get_acks idx => some (w.get_acks idx)

/-- Steps in any order. -/
def run : List (Op T N) → Sources T N → Option (Sources T N)
  | [], w => some w
  | op :: ops, w => (w.step op).bind (run ops)

/-! ## What always holds -/

/-- The events whose boolean is still to be set. -/
def held (w : Sources T N) : List (Element T N) := w.fifo.events ++ w.taken

/-- Where the slot of an event is. -/
def slotOf (w : Sources T N) (el : Element T N) : Option Slot :=
  (w.fifo.timeline el.source)[el.rank - w.removed el.source]?

/-- What holds after any steps, from what `_ack` was. -/
structure Inv (ack : Fin N → ℤ) (w : Sources T N) : Prop where
  /-- A timeline is what was pushed, without what was removed. -/
  timeline : ∀ i, (w.fifo.timeline i).map Prod.snd = (w.pushed i).drop (w.removed i)
  /-- What was removed is processed. -/
  removed : ∀ i k, k < w.removed i → (w.pushed i)[k]? = some true
  address : ∀ (i j : Fin N) (p q : ℕ) (s t : Slot), (w.fifo.timeline i)[p]? = some s →
    (w.fifo.timeline j)[q]? = some t → s.1 = t.1 → i = j ∧ p = q
  held : ∀ el ∈ w.held, w.removed el.source ≤ el.rank ∧ w.slotOf el = some (el.flag, false)
  distinct : (w.held.map fun el => (el.source, el.rank)).Nodup
  sum : ∀ i, w.returned i + w.fifo.ack i = ack i + w.removed i
  pending : w.fifo.pending_elements = ∑ i, ((w.fifo.timeline i).length : ℤ)

theorem inv_start (ack : Fin N → ℤ) : Inv ack (start ack : Sources T N) where
  timeline _ := rfl
  removed _ k h := absurd h (Nat.not_lt_zero k)
  address _ _ p _ _ _ h := absurd h nofun
  held _ h := absurd h List.not_mem_nil
  distinct := List.nodup_nil
  sum i := by
    show (0 : ℤ) + ack i = ack i + ((0 : ℕ) : ℤ)
    omega
  pending := by
    show (0 : ℤ) = ∑ _i : Fin N, (([] : List Slot).length : ℤ)
    simp

section Inv

variable {ack : Fin N → ℤ} {w : Sources T N}

theorem Inv.length (h : Inv ack w) (i : Fin N) :
    (w.fifo.timeline i).length = (w.pushed i).length - w.removed i := by
  have hlength := congrArg List.length (h.timeline i)
  rwa [List.length_map, List.length_drop] at hlength

theorem Inv.removed_le (h : Inv ack w) (i : Fin N) : w.removed i ≤ (w.pushed i).length := by
  by_contra hlt
  have htrue := h.removed i (w.pushed i).length (by omega)
  rw [List.getElem?_eq_none (Nat.le_refl _)] at htrue
  cases htrue

/-- The boolean of what is pushed is in the timeline, if it was not removed. -/
theorem Inv.pushed_eq (h : Inv ack w) {i : Fin N} {k : ℕ} (hk : w.removed i ≤ k) :
    (w.pushed i)[k]? = ((w.fifo.timeline i)[k - w.removed i]?).map Prod.snd := by
  rw [← List.getElem?_map, h.timeline, List.getElem?_drop]
  congr 1
  omega

variable {el : Element T N}

/-- An event that is held has been pushed, and is not processed. -/
theorem Inv.pushed_held (h : Inv ack w) (hel : el ∈ w.held) :
    (w.pushed el.source)[el.rank]? = some false := by
  obtain ⟨hle, hslot⟩ := h.held el hel
  rw [h.pushed_eq hle]
  exact congrArg (Option.map Prod.snd) hslot

theorem Inv.rank_lt (h : Inv ack w) (hel : el ∈ w.held) :
    el.rank < (w.pushed el.source).length :=
  (List.getElem?_eq_some_iff.mp (h.pushed_held hel)).1

/-- No other slot is at the address that an event holds. -/
theorem Inv.unique (h : Inv ack w) (hel : el ∈ w.held) {j : Fin N} {q : ℕ}
    {s : Slot} (hs : (w.fifo.timeline j)[q]? = some s) (haddress : s.1 = el.flag) :
    j = el.source ∧ q = el.rank - w.removed el.source :=
  h.address j el.source q _ s (el.flag, false) hs (h.held el hel).2 haddress

end Inv

section Steps

variable {ack : Fin N → ℤ} {w : Sources T N}

theorem update_append {β : Type} (f : Fin N → List β) (idx : Fin N) (l : List β) (i : Fin N) :
    Function.update f idx (f idx ++ l) i = f i ++ if i = idx then l else [] := by
  by_cases hi : i = idx
  · rw [hi, Function.update_self, if_pos rfl]
  · rw [Function.update_of_ne hi, if_neg hi, List.append_nil]

/-- What is taken out of `_ack` is what is returned. -/
theorem Inv.sum_returned (h : Inv ack w) (idx i : Fin N) :
    Function.update w.returned idx (w.returned idx + w.fifo.ack idx) i +
      Function.update w.fifo.ack idx 0 i = ack i + w.removed i := by
  have hsum := h.sum i
  by_cases hi : i = idx
  · subst hi
    rw [Function.update_self, Function.update_self]
    omega
  · rw [Function.update_of_ne hi, Function.update_of_ne hi]
    exact hsum

theorem Inv.push (h : Inv ack w) {idx : Fin N} (e : T) {address : ℕ}
    (hfree : ∀ j, address ∉ (w.fifo.timeline j).map Prod.fst) :
    Inv ack (w.push idx e address) := by
  have htimeline : ∀ i, (w.push idx e address).fifo.timeline i =
      w.fifo.timeline i ++ if i = idx then [(address, false)] else [] :=
    update_append w.fifo.timeline idx _
  have hpushed : ∀ i, (w.push idx e address).pushed i =
      w.pushed i ++ if i = idx then [false] else [] := update_append w.pushed idx _
  -- a slot is an old one, or the new one
  have hslot : ∀ (i : Fin N) (p : ℕ) (s : Slot), ((w.push idx e address).fifo.timeline i)[p]? = some s →
      (w.fifo.timeline i)[p]? = some s ∨
        (i = idx ∧ p = (w.fifo.timeline idx).length ∧ s = (address, false)) := by
    intro i p s hs
    rw [htimeline] at hs
    by_cases hi : i = idx
    · subst hi
      rw [if_pos rfl, List.getElem?_append] at hs
      split at hs
      · exact .inl hs
      · rw [List.getElem?_singleton] at hs
        split at hs
        · exact .inr ⟨rfl, by omega, (Option.some.inj hs).symm⟩
        · cases hs
    · rw [if_neg hi, List.append_nil] at hs
      exact .inl hs
  have hnot : ∀ (i : Fin N) (p : ℕ) (s : Slot), (w.fifo.timeline i)[p]? = some s → s.1 ≠ address := by
    intro i p s hs heq
    exact hfree i (heq ▸ List.mem_map_of_mem (List.mem_of_getElem? hs))
  have hheld : ∀ el ∈ (w.push idx e address).held, el ∈ w.held ∨
      el = ⟨e, idx, address, (w.pushed idx).length⟩ := by
    intro el hel
    rcases List.mem_append.mp hel with hel | hel
    · rcases List.mem_append.mp hel with hel | hel
      · exact .inl (List.mem_append_left _ hel)
      · exact .inr (List.mem_singleton.mp hel)
    · exact .inl (List.mem_append_right _ hel)
  refine ⟨fun i => ?_, fun i k hk => ?_, fun i j p q s t hs ht heq => ?_, fun el hel => ?_, ?_,
    fun i => ?_, ?_⟩
  · show _ = ((w.push idx e address).pushed i).drop (w.removed i)
    rw [htimeline, hpushed, List.map_append, h.timeline, List.drop_append_of_le_length (h.removed_le i)]
    by_cases hi : i = idx
    · rw [if_pos hi, if_pos hi]
      rfl
    · rw [if_neg hi, if_neg hi]
      rfl
  · have htrue := h.removed i k hk
    rw [hpushed, List.getElem?_append_left (List.getElem?_eq_some_iff.mp htrue).1]
    exact htrue
  · rcases hslot i p s hs with hs | ⟨hi, hp, rfl⟩
    · rcases hslot j q t ht with ht | ⟨-, -, rfl⟩
      · exact h.address i j p q s t hs ht heq
      · exact absurd heq (hnot i p s hs)
    · rcases hslot j q t ht with ht | ⟨hj, hq, -⟩
      · exact absurd heq.symm (hnot j q t ht)
      · exact ⟨hi.trans hj.symm, hp.trans hq.symm⟩
  · rcases hheld el hel with hel | rfl
    · obtain ⟨hle, hs⟩ := h.held el hel
      refine ⟨hle, ?_⟩
      show ((w.push idx e address).fifo.timeline el.source)[el.rank - w.removed el.source]? = _
      rw [htimeline, List.getElem?_append_left (List.getElem?_eq_some_iff.mp hs).1]
      exact hs
    · refine ⟨h.removed_le idx, ?_⟩
      show ((w.push idx e address).fifo.timeline idx)[(w.pushed idx).length - w.removed idx]? = _
      rw [htimeline, if_pos rfl, ← h.length idx, List.getElem?_append_right (Nat.le_refl _),
        Nat.sub_self]
      rfl
  · -- the new rank is greater than all others
    have hperm : (w.push idx e address).held.Perm
        (⟨e, idx, address, (w.pushed idx).length⟩ :: w.held) := by
      show (w.fifo.events ++ [_] ++ w.taken).Perm _
      rw [List.append_assoc]
      exact List.perm_middle
    rw [(hperm.map _).nodup_iff, List.map_cons, List.nodup_cons]
    refine ⟨fun hin => ?_, h.distinct⟩
    obtain ⟨el, hel, heq⟩ := List.mem_map.mp hin
    have hsource : el.source = idx := (Prod.mk.inj heq).1
    have hrank : el.rank = (w.pushed idx).length := (Prod.mk.inj heq).2
    have hlt := h.rank_lt hel
    rw [hsource] at hlt
    omega
  · exact h.sum_returned idx i
  · show w.fifo.pending_elements + 1 = _
    have hlength : ∀ i, (((w.push idx e address).fifo.timeline i).length : ℤ) =
        (w.fifo.timeline i).length + if i = idx then 1 else 0 := by
      intro i
      rw [htimeline, List.length_append]
      split <;> simp
    simp only [hlength, Finset.sum_add_distrib, Finset.sum_ite_eq', Finset.mem_univ, if_true]
    rw [h.pending]

/-- Who holds an event, and in which order, does not matter. -/
theorem Inv.rearrange (h : Inv ack w) {events taken : List (Element T N)}
    (hperm : (events ++ taken).Perm w.held) :
    Inv ack { w with fifo := { w.fifo with events := events }, taken := taken } :=
  ⟨h.timeline, h.removed, h.address, fun el hel => h.held el (hperm.mem_iff.mp hel),
    ((hperm.map _).nodup_iff).mpr h.distinct, h.sum, h.pending⟩

theorem Inv.first_events (h : Inv ack w) : Inv ack w.first_events := by
  have hperm : (w.taken ++ w.fifo.events).Perm w.held := List.perm_append_comm
  exact h.rearrange (((List.nil_append _).symm ▸ hperm))

theorem Inv.get_acks (h : Inv ack w) (idx : Fin N) : Inv ack (w.get_acks idx) :=
  ⟨h.timeline, h.removed, h.address, h.held, h.distinct, h.sum_returned idx, h.pending⟩

variable {el : Element T N}

theorem pushed_setFlag {i : Fin N} {k : ℕ}
    (hk : ((w.setFlag el).pushed i)[k]? = some true) :
    (i = el.source ∧ k = el.rank) ∨ (w.pushed i)[k]? = some true := by
  have hk : (Function.update w.pushed el.source ((w.pushed el.source).set el.rank true) i)[k]? =
    some true := hk
  by_cases hi : i = el.source
  · subst hi
    rw [Function.update_self, List.getElem?_set] at hk
    by_cases hrank : el.rank = k
    · exact .inl ⟨rfl, hrank.symm⟩
    · rw [if_neg hrank] at hk
      exact .inr hk
  · rw [Function.update_of_ne hi] at hk
    exact .inr hk

/-- What is set, and what is left alone. -/
theorem Inv.setFlag_slot (h : Inv ack w) (hel : el ∈ w.held) (i : Fin N)
    (p : ℕ) : ((w.setFlag el).fifo.timeline i)[p]? =
      if i = el.source ∧ p = el.rank - w.removed el.source then some (el.flag, true)
      else (w.fifo.timeline i)[p]? := by
  show ((w.fifo.timeline i).map fun s => if s.1 = el.flag then (s.1, true) else s)[p]? = _
  rw [List.getElem?_map]
  by_cases hthis : i = el.source ∧ p = el.rank - w.removed el.source
  · obtain ⟨rfl, rfl⟩ := hthis
    have hslot : (w.fifo.timeline el.source)[el.rank - w.removed el.source]? = _ := (h.held el hel).2
    rw [hslot, if_pos ⟨rfl, rfl⟩, Option.map_some, if_pos rfl]
  · rw [if_neg hthis]
    cases hs : (w.fifo.timeline i)[p]? with
    | none => rfl
    | some s => rw [Option.map_some, if_neg fun heq => hthis (h.unique hel hs heq)]

/-- The boolean of an event that was taken is set. -/
theorem Inv.setFlag (h : Inv ack w) {others : List (Element T N)}
    (hperm : w.held.Perm (el :: (w.fifo.events ++ others))) :
    Inv ack (setFlag el { w with taken := others }) := by
  have hel : el ∈ w.held := hperm.mem_iff.mpr List.mem_cons_self
  have hothers : ∀ el' ∈ w.fifo.events ++ others, el' ∈ w.held := fun el' hel' =>
    hperm.mem_iff.mpr (List.mem_cons_of_mem el hel')
  have hkeys := ((hperm.map fun el => (el.source, el.rank)).nodup_iff).mp h.distinct
  rw [List.map_cons, List.nodup_cons] at hkeys
  set w' := Sources.setFlag el { w with taken := others }
  have hslot : ∀ (i : Fin N) (p : ℕ), (w'.fifo.timeline i)[p]? =
      if i = el.source ∧ p = el.rank - w.removed el.source then some (el.flag, true)
      else (w.fifo.timeline i)[p]? := h.setFlag_slot hel
  have hpushed : ∀ i k, (w'.pushed i)[k]? =
      if i = el.source ∧ k = el.rank then some true else (w.pushed i)[k]? := by
    intro i k
    show (Function.update w.pushed el.source ((w.pushed el.source).set el.rank true) i)[k]? = _
    by_cases hi : i = el.source
    · subst hi
      rw [Function.update_self, List.getElem?_set]
      by_cases hk : el.rank = k
      · subst hk
        rw [if_pos rfl, if_pos (h.rank_lt hel), if_pos ⟨rfl, rfl⟩]
      · rw [if_neg hk, if_neg fun hand => hk hand.2.symm]
    · rw [Function.update_of_ne hi, if_neg fun hand => hi hand.1]
  have hle := (h.held el hel).1
  refine ⟨fun i => ?_, fun i k hk => ?_, fun i j p q s t hs ht heq => ?_, fun el' hel' => ?_,
    hkeys.2, h.sum, ?_⟩
  · refine List.ext_getElem? fun p => ?_
    rw [List.getElem?_map, hslot, List.getElem?_drop, hpushed]
    show _ = if i = el.source ∧ w.removed i + p = el.rank then some true
      else (w.pushed i)[w.removed i + p]?
    by_cases hi : i = el.source
    · subst hi
      by_cases hp : p = el.rank - w.removed el.source
      · rw [if_pos ⟨rfl, hp⟩, if_pos ⟨rfl, by omega⟩]
        rfl
      · rw [if_neg fun hand => hp hand.2, if_neg fun hand => hp (by omega),
          h.pushed_eq (Nat.le_add_right _ _), Nat.add_sub_cancel_left]
    · rw [if_neg fun hand => hi hand.1, if_neg fun hand => hi hand.1,
        h.pushed_eq (Nat.le_add_right _ _), Nat.add_sub_cancel_left]
  · rw [hpushed]
    split
    · rfl
    · exact h.removed i k hk
  · -- setting a boolean moves no slot
    have hold : ∀ (i : Fin N) (p : ℕ) (s : Slot), (w'.fifo.timeline i)[p]? = some s →
        ∃ b, (w.fifo.timeline i)[p]? = some (s.1, b) := by
      intro i p s hs
      have hs : ((w.fifo.timeline i).map fun s => if s.1 = el.flag then (s.1, true) else s)[p]? =
        some s := hs
      rw [List.getElem?_map] at hs
      obtain ⟨s', hs', hif⟩ := Option.map_eq_some_iff.mp hs
      refine ⟨s'.2, hs'.trans (congrArg some (Prod.ext ?_ rfl))⟩
      rw [← hif]
      split <;> rfl
    obtain ⟨b, hs⟩ := hold i p s hs
    obtain ⟨b', ht⟩ := hold j q t ht
    exact h.address i j p q _ _ hs ht heq
  · have hmem := hothers el' hel'
    obtain ⟨hle', hs'⟩ := h.held el' hmem
    refine ⟨hle', ?_⟩
    show (w'.fifo.timeline el'.source)[el'.rank - w.removed el'.source]? = _
    rw [hslot, if_neg]
    · exact hs'
    · intro ⟨hsource, hposition⟩
      -- it would be the event that was processed
      refine hkeys.1 (List.mem_map.mpr ⟨el', hel', Prod.ext hsource ?_⟩)
      rw [hsource] at hle' hposition
      show el'.rank = el.rank
      omega
  · show w.fifo.pending_elements = ∑ i, (((w.fifo.timeline i).map _).length : ℤ)
    simp only [List.length_map]
    exact h.pending

theorem Inv.process (h : Inv ack w) {k : ℕ} (hk : w.taken[k]? = some el) :
    Inv ack (Sources.setFlag el { w with taken := w.taken.eraseIdx k }) := by
  obtain ⟨hlt, rfl⟩ := List.getElem?_eq_some_iff.mp hk
  refine h.setFlag ?_
  have hperm := List.getElem_cons_eraseIdx_perm hlt
  exact (List.Perm.append_left w.fifo.events hperm.symm).trans List.perm_middle

theorem Inv.clean (h : Inv ack w) (idx : Fin N) : Inv ack (w.clean idx) := by
  have hsplit : (w.fifo.timeline idx).takeWhile Prod.snd ++ (w.fifo.timeline idx).dropWhile Prod.snd =
      w.fifo.timeline idx := List.takeWhile_append_dropWhile
  have hdrop : (w.fifo.timeline idx).dropWhile Prod.snd =
      (w.fifo.timeline idx).drop (w.fifo.cleanCount idx) := by
    conv_rhs => rw [← hsplit]
    exact List.drop_left.symm
  -- all that is taken from the front is processed
  have htrue : ∀ p, p < w.fifo.cleanCount idx →
      ∃ a, (w.fifo.timeline idx)[p]? = some (a, true) := by
    intro p hp
    have hget : (w.fifo.timeline idx)[p]? = some ((w.fifo.timeline idx).takeWhile Prod.snd)[p] := by
      conv_lhs => rw [← hsplit]
      rw [List.getElem?_append_left hp, List.getElem?_eq_getElem hp]
    have hsnd := List.mem_takeWhile_imp (List.getElem_mem hp)
    exact ⟨_, hget.trans (congrArg some (Prod.ext rfl hsnd))⟩
  have htimeline : ∀ i p, ((w.clean idx).fifo.timeline i)[p]? =
      (w.fifo.timeline i)[p + if i = idx then w.fifo.cleanCount idx else 0]? := by
    intro i p
    show (Function.update w.fifo.timeline idx ((w.fifo.timeline idx).dropWhile Prod.snd) i)[p]? = _
    by_cases hi : i = idx
    · subst hi
      rw [Function.update_self, hdrop, List.getElem?_drop, if_pos rfl, Nat.add_comm]
    · rw [Function.update_of_ne hi, if_neg hi, Nat.add_zero]
  have hremoved : ∀ i, (w.clean idx).removed i =
      w.removed i + if i = idx then w.fifo.cleanCount idx else 0 := by
    intro i
    by_cases hi : i = idx
    · subst hi
      exact (Function.update_self _ _ _).trans (by rw [if_pos rfl])
    · exact (Function.update_of_ne hi _ _).trans (by rw [if_neg hi, Nat.add_zero])
  refine ⟨fun i => ?_, fun i k hk => ?_, fun i j p q s t hs ht heq => ?_, fun el hel => ?_,
    h.distinct, fun i => ?_, ?_⟩
  · show _ = (w.pushed i).drop _
    rw [hremoved, ← List.drop_drop, ← h.timeline, ← List.map_drop]
    congr 1
    refine List.ext_getElem? fun p => ?_
    rw [htimeline, List.getElem?_drop, Nat.add_comm]
  · rw [hremoved] at hk
    by_cases hlt : k < w.removed i
    · exact h.removed i k hlt
    · by_cases hi : i = idx
      · subst hi
        rw [if_pos rfl] at hk
        obtain ⟨a, ha⟩ := htrue (k - w.removed i) (by omega)
        show (w.pushed i)[k]? = some true
        rw [h.pushed_eq (by omega), ha]
        rfl
      · rw [if_neg hi] at hk
        omega
  · rw [htimeline] at hs ht
    obtain ⟨rfl, hpq⟩ := h.address i j _ _ s t hs ht heq
    exact ⟨rfl, by omega⟩
  · obtain ⟨hle, hs⟩ := h.held el hel
    -- an event that is not processed is behind what is taken
    have hbehind : (if el.source = idx then w.fifo.cleanCount idx else 0) ≤
        el.rank - w.removed el.source := by
      split
      · rename_i hsource
        by_contra hlt
        obtain ⟨a, ha⟩ := htrue (el.rank - w.removed el.source) (by omega)
        rw [← hsource] at ha
        have heq := Option.some.inj (ha.symm.trans hs)
        exact absurd (Prod.mk.inj heq).2 nofun
      · exact Nat.zero_le _
    show (w.clean idx).removed el.source ≤ el.rank ∧
      ((w.clean idx).fifo.timeline el.source)[el.rank - (w.clean idx).removed el.source]? = _
    rw [hremoved, htimeline]
    refine ⟨by omega, ?_⟩
    rw [← hs]
    show _ = (w.fifo.timeline el.source)[el.rank - w.removed el.source]?
    congr 1
    omega
  · have hsum := h.sum i
    rw [hremoved]
    show w.returned i + Function.update w.fifo.ack idx _ i = _
    by_cases hi : i = idx
    · subst hi
      rw [Function.update_self, if_pos rfl]
      omega
    · rw [Function.update_of_ne hi, if_neg hi]
      omega
  · show w.fifo.pending_elements - w.fifo.cleanCount idx = _
    have hlength : ∀ i, (((w.clean idx).fifo.timeline i).length : ℤ) =
        (w.fifo.timeline i).length - if i = idx then (w.fifo.cleanCount idx : ℤ) else 0 := by
      intro i
      show ((Function.update w.fifo.timeline idx ((w.fifo.timeline idx).dropWhile Prod.snd) i).length : ℤ) = _
      by_cases hi : i = idx
      · subst hi
        have htotal := congrArg List.length hsplit
        rw [List.length_append] at htotal
        rw [Function.update_self, if_pos rfl, Mfifo.cleanCount]
        omega
      · rw [Function.update_of_ne hi, if_neg hi, sub_zero]
    simp only [hlength, Finset.sum_sub_distrib, Finset.sum_ite_eq', Finset.mem_univ, if_true]
    rw [h.pending]

/-- What a step can do, and what it keeps. -/
theorem Inv.step (h : Inv ack w) {op : Op T N} {w' : Sources T N} (hstep : w.step op = some w') :
    Inv ack w' := by
  cases op with
  | push idx e address =>
    simp only [Sources.step] at hstep
    split at hstep
    · cases hstep
    · rename_i hfree
      obtain rfl := Option.some.inj hstep
      exact h.push e fun j hj => hfree ⟨j, hj⟩
  | first_events =>
    obtain rfl := Option.some.inj hstep
    exact h.first_events
  | process k =>
    obtain ⟨el, hk, rfl⟩ := Option.map_eq_some_iff.mp hstep
    exact h.process hk
  | clean idx =>
    obtain rfl := Option.some.inj hstep
    exact h.clean idx
  | get_acks idx =>
    obtain rfl := Option.some.inj hstep
    exact h.get_acks idx

theorem Inv.run (h : Inv ack w) {ops : List (Op T N)} {w' : Sources T N}
    (hrun : Sources.run ops w = some w') : Inv ack w' := by
  induction ops generalizing w with
  | nil =>
    obtain rfl := Option.some.inj hrun
    exact h
  | cons op ops ih =>
    obtain ⟨w₁, hstep, hrun⟩ := Option.bind_eq_some_iff.mp hrun
    exact ih (h.step hstep) hrun

end Steps

/-! ## What a source is told -/

/-- The acknowledgements are right, and the pointers too. -/
structure Safe (w : Sources T N) : Prop where
  /-- What a source was told, and what it is to be told, is what was removed of its own. -/
  acks : ∀ i, w.returned i + w.fifo.ack i = w.removed i
  /-- All of that is processed, and so is all before it. -/
  processed : ∀ i, w.removed i ≤ ((w.pushed i).takeWhile id).length
  /-- The pointer of an event that is not processed leads to its own slot, and no other. -/
  pointer : ∀ el ∈ w.held, w.removed el.source ≤ el.rank ∧ w.slotOf el = some (el.flag, false) ∧
    ∀ (i : Fin N) (p : ℕ) (s : Slot), (w.fifo.timeline i)[p]? = some s → s.1 = el.flag →
      i = el.source ∧ p = el.rank - w.removed el.source
  pending : w.fifo.pending_elements = ∑ i, ((w.fifo.timeline i).length : ℤ)

theorem le_length_takeWhile {l : List Bool} {n : ℕ} (h : ∀ k, k < n → l[k]? = some true) :
    n ≤ (l.takeWhile id).length := by
  induction l generalizing n with
  | nil =>
    cases n with
    | zero => exact Nat.zero_le _
    | succ n => exact absurd (h 0 (Nat.succ_pos n)) nofun
  | cons b l ih =>
    cases n with
    | zero => exact Nat.zero_le _
    | succ n =>
      obtain rfl : b = true := Option.some.inj (h 0 (Nat.succ_pos n))
      exact Nat.succ_le_succ (ih fun k hk => h (k + 1) (Nat.succ_lt_succ hk))

/--
**After any steps, acknowledgements are right if and only if `_ack` was zero when the queue
was made.** The pointers and the count of what is pending are right anyway.
-/
theorem safe_iff (ack : Fin N → ℤ) (ops : List (Op T N)) (w : Sources T N)
    (h : run ops (start ack) = some w) : Safe w ↔ ∀ i, ack i = 0 := by
  have hinv : Inv ack w := (inv_start ack).run h
  refine ⟨fun hsafe i => ?_, fun hzero => ?_⟩
  · have hsum := hinv.sum i
    have hacks := hsafe.acks i
    omega
  · refine ⟨fun i => ?_, fun i => le_length_takeWhile (hinv.removed i), fun el hel => ?_, hinv.pending⟩
    · have hsum := hinv.sum i
      rw [hzero i] at hsum
      omega
    · obtain ⟨hle, hslot⟩ := hinv.held el hel
      exact ⟨hle, hslot, fun i p s hs heq => hinv.unique hel hs heq⟩

/-- Two sources push one event each, and the second is processed first. -/
def twoSources : List (Op Char 2) :=
  [.push 0 'a' 10, .push 1 'b' 11, .first_events, .process 1, .clean 0, .clean 1, .get_acks 1]

theorem safe_iff_twoSources :
    ∃ w, run twoSources (start fun _ => 0) = some w ∧ (Safe w ↔ ∀ i : Fin 2, (0 : Fin 2 → ℤ) i = 0) :=
  ⟨_, rfl, safe_iff (0 : Fin 2 → ℤ) twoSources _ rfl⟩

/-- The memory of a new queue had a 7 where `_ack` is. -/
theorem not_safe : ¬∀ (ack : Fin 2 → ℤ) (ops : List (Op Char 2)) (w : Sources Char 2),
    run ops (start ack) = some w → Safe w := by
  intro h
  have hacks := (h (fun _ => 7) [] _ rfl).acks 0
  exact absurd hacks (by decide)

end Sources

end CentreonBroker.Storage
