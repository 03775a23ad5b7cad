import CentreonBroker.Neb.DowntimeScheduler

/-!
# The life of a downtime

Each pass is two loops over what is due. As long as no id is in an index twice, what the loops do to
an id depends on its own entries, so that a downtime is followed from when it is added to its end.
-/

namespace CentreonBroker.Neb

namespace Scheduler

/-! ## The indexes -/

section TimeIndex

variable {x : TimeIndex} {t now : Int} {id : UInt32} {e : Int × UInt32}

theorem perm_insert : (x.insert t id).entries.Perm ((t, id) :: x.entries) := by
  refine List.perm_middle.trans (List.Perm.cons _ ?_)
  have hnot : ∀ e ∈ x.entries, decide (t < e.1) = !decide (e.1 ≤ t) := by
    intro e _
    rw [← decide_not]
    exact decide_eq_decide.mpr Int.not_le.symm
  rw [List.filter_congr hnot]
  exact List.filter_append_perm _ _

theorem mem_insert : e ∈ (x.insert t id).entries ↔ e = (t, id) ∨ e ∈ x.entries :=
  perm_insert.mem_iff.trans List.mem_cons

theorem mem_remove : e ∈ (x.remove id).entries ↔ e ∈ x.entries ∧ e.2 ≠ id :=
  List.mem_filter.trans (and_congr_right fun _ => decide_eq_true_iff)

/-- As the entries are in order, a pass goes over all that are due. -/
theorem mem_due_iff : e ∈ x.due now ↔ e ∈ x.entries ∧ e.1 ≤ now := by
  rcases x with ⟨entries, hsorted⟩
  show e ∈ entries.takeWhile (·.1 ≤ now) ↔ e ∈ entries ∧ e.1 ≤ now
  induction entries with
  | nil => simp
  | cons e' entries ih =>
    obtain ⟨hfirst, hrest⟩ := List.pairwise_cons.mp hsorted
    by_cases hdue : e'.1 ≤ now
    · rw [List.takeWhile_cons, decide_eq_true hdue, if_pos rfl, List.mem_cons, List.mem_cons,
        ih hrest]
      exact ⟨fun h => h.elim (fun he => ⟨.inl he, he ▸ hdue⟩) fun h => ⟨.inr h.1, h.2⟩,
        fun ⟨h, hle⟩ => h.imp_right fun h => ⟨h, hle⟩⟩
    · rw [List.takeWhile_cons, decide_eq_false hdue]
      refine iff_of_false List.not_mem_nil fun ⟨hmem, hle⟩ => ?_
      rcases List.mem_cons.mp hmem with rfl | hmem
      · exact hdue hle
      · exact hdue (Int.le_trans (hfirst e hmem) hle)

theorem mem_ahead_iff : e ∈ (x.ahead now).entries ↔ e ∈ x.entries ∧ now < e.1 := by
  rcases x with ⟨entries, hsorted⟩
  show e ∈ entries.dropWhile (·.1 ≤ now) ↔ e ∈ entries ∧ now < e.1
  induction entries with
  | nil => simp
  | cons e' entries ih =>
    obtain ⟨hfirst, hrest⟩ := List.pairwise_cons.mp hsorted
    by_cases hdue : e'.1 ≤ now
    · rw [List.dropWhile_cons, decide_eq_true hdue, if_pos rfl, ih hrest, List.mem_cons]
      exact ⟨fun ⟨h, hlt⟩ => ⟨.inr h, hlt⟩,
        fun ⟨h, hlt⟩ => ⟨h.resolve_left fun he => absurd hdue (he ▸ Int.not_le.mpr hlt), hlt⟩⟩
    · rw [List.dropWhile_cons, decide_eq_false hdue]
      refine ⟨fun hmem => ⟨hmem, ?_⟩, And.left⟩
      rcases List.mem_cons.mp hmem with rfl | hmem
      · exact Int.not_le.mp hdue
      · exact Int.lt_of_lt_of_le (Int.not_le.mp hdue) (hfirst e hmem)

/-- The ids of an index, which is to have each of them once. -/
def ids (entries : List (Int × UInt32)) : List UInt32 := entries.map Prod.snd

theorem nodup_insert (h : (ids x.entries).Nodup) (hnew : ∀ e ∈ x.entries, e.2 ≠ id) :
    (ids (x.insert t id).entries).Nodup := by
  refine (perm_insert.map Prod.snd).nodup_iff.mpr (List.nodup_cons.mpr ⟨fun hmem => ?_, h⟩)
  obtain ⟨e, he, heq⟩ := List.mem_map.mp hmem
  exact hnew e he heq

variable {l : List (Int × UInt32)}

theorem nodup_sublist {l' : List (Int × UInt32)} (h : l.Sublist l') (hnodup : (ids l').Nodup) :
    (ids l).Nodup := hnodup.sublist (h.map _)

theorem ne_of_not_mem_ids (h : id ∉ ids l) : ∀ e ∈ l, e.2 ≠ id :=
  fun _ he heq => h (heq ▸ List.mem_map_of_mem he)

theorem eq_of_nodup (h : (ids l).Nodup) {e e' : Int × UInt32} (he : e ∈ l)
    (he' : e' ∈ l) (hid : e.2 = e'.2) : e = e' := List.inj_on_of_nodup_map h he he' hid

end TimeIndex

/-! ## The loops -/

section Loops

variable (clock : Nat → Int) {due : List (Int × UInt32)} {downtimes : UInt32 → Option Downtime}
  {id : UInt32} {d : Downtime}

/-- The downtimes are stored under their ids. -/
def Keyed (downtimes : UInt32 → Option Downtime) : Prop :=
  ∀ id d, downtimes id = some d → d.internalId = id

/-- What is designated is there. -/
def Designate (due : List (Int × UInt32)) (downtimes : UInt32 → Option Downtime) : Prop :=
  ∀ e ∈ due, downtimes e.2 ≠ none

theorem Keyed.update (h : Keyed downtimes) {x : Option Downtime}
    (hx : ∀ d, x = some d → d.internalId = id) : Keyed (Function.update downtimes id x) := by
  intro i d' hd'
  by_cases hi : i = id
  · rw [hi, Function.update_self] at hd'
    rw [hx d' hd', hi]
  · rw [Function.update_of_ne hi] at hd'
    exact h i d' hd'

theorem lookup_of_some (hd : downtimes id = some d) : lookup downtimes id = d := by
  rw [lookup, hd, Option.getD_some]

/-- What is ended is erased. -/
theorem eraseEnded_eq (hd : d.internalId = id) :
    eraseEnded downtimes id d = Function.update downtimes id none := by
  rw [eraseEnded, lookup_of_some (Function.update_self _ _ _), hd, Function.update_idem]

theorem forId_cons_self {p : Published} {pub : List Published} (h : p.dwn.internalId = id) :
    forId id (p :: pub) = p :: forId id pub := List.filter_cons_of_pos (decide_eq_true h)

theorem forId_cons_of_ne {p : Published} {pub : List Published} (h : p.dwn.internalId ≠ id) :
    forId id (p :: pub) = forId id pub := List.filter_cons_of_neg (by simpa using h)

theorem forId_append (pub pub' : List Published) :
    forId id (pub ++ pub') = forId id pub ++ forId id pub' := List.filter_append _ _

theorem designate_update (h : Designate due downtimes) (i : UInt32) (d : Downtime) :
    Designate due (Function.update downtimes i (some d)) := by
  intro e he
  by_cases hi : e.2 = i
  · rw [hi, Function.update_self]
    exact Option.some_ne_none d
  · rw [Function.update_of_ne hi]
    exact h e he

variable {e : Int × UInt32}

theorem designate_tail (h : Designate (e :: due) downtimes) (hnodup : (ids (e :: due)).Nodup)
    (x : Option Downtime) : Designate due (Function.update downtimes e.2 x) := by
  intro e' he'
  have hne : e'.2 ≠ e.2 := fun heq =>
    (List.nodup_cons.mp hnodup).1 (heq ▸ List.mem_map_of_mem he')
  rw [Function.update_of_ne hne]
  exact h e' (List.mem_cons_of_mem e he')

/-- A loop over what is due puts `next` of each downtime in its place, and publishes `out`. -/
structure Passes (next : Downtime → Int → Option Downtime) (out : Downtime → Int → Published)
    (loop : Nat → List (Int × UInt32) → (UInt32 → Option Downtime) →
      (UInt32 → Option Downtime) × List Published) : Prop where
  nil : ∀ k downtimes, loop k [] downtimes = (downtimes, [])
  cons : ∀ {k e due downtimes d}, Keyed downtimes → downtimes e.2 = some d →
    loop k (e :: due) downtimes =
      let rest := loop (k + 1) due (Function.update downtimes e.2 (next d (clock k)))
      (rest.1, out d (clock k) :: rest.2)
  next_id : ∀ d r d', next d r = some d' → d'.internalId = d.internalId
  out_id : ∀ d r, (out d r).dwn.internalId = d.internalId

theorem passes_startLoop : Passes clock (fun d r => some (startDowntime d r))
    (fun d r => .started (startDowntime d r)) (startLoop clock) where
  nil _ _ := rfl
  cons _ hd := by rw [startLoop, lookup_of_some hd]
  next_id := by
    rintro d r _ ⟨⟩
    rfl
  out_id _ _ := rfl

theorem passes_endLoop : Passes clock (fun _ _ => none)
    (fun d r => .ended (endDowntime d r)) (endLoop clock) where
  nil _ _ := rfl
  cons {k e _ _ d} hkeyed hd := by
    have hkey : d.internalId = e.2 := hkeyed _ _ hd
    rw [endLoop, lookup_of_some hd, eraseEnded_eq (d := endDowntime d (clock k)) hkey]
  next_id _ _ _ h := by cases h
  out_id _ _ := rfl

section Passes

variable {clock} {next : Downtime → Int → Option Downtime} {out : Downtime → Int → Published}
  {loop : Nat → List (Int × UInt32) → (UInt32 → Option Downtime) →
    (UInt32 → Option Downtime) × List Published}

theorem Passes.step (hp : Passes clock next out loop) (hkeyed : Keyed downtimes)
    (hd : downtimes id = some d) (r : Int) : Keyed (Function.update downtimes id (next d r)) :=
  hkeyed.update fun d' hd' => (hp.next_id d r d' hd').trans (hkeyed _ _ hd)

theorem Passes.keyed (hp : Passes clock next out loop) (hkeyed : Keyed downtimes)
    (hdes : Designate due downtimes) (hnodup : (ids due).Nodup) (k : Nat) :
    Keyed (loop k due downtimes).1 := by
  induction due generalizing k downtimes with
  | nil =>
    rw [hp.nil]
    exact hkeyed
  | cons e due ih =>
    obtain ⟨d, hd⟩ := Option.ne_none_iff_exists'.mp (hdes e List.mem_cons_self)
    rw [hp.cons hkeyed hd]
    exact ih (hp.step hkeyed hd _) (designate_tail hdes hnodup _) (List.nodup_cons.mp hnodup).2 _

/-- The loop leaves alone what is not due. -/
theorem Passes.other (hp : Passes clock next out loop) (hkeyed : Keyed downtimes)
    (hdes : Designate due downtimes) (hnodup : (ids due).Nodup) (hid : ∀ e ∈ due, e.2 ≠ id)
    (k : Nat) :
    (loop k due downtimes).1 id = downtimes id ∧ forId id (loop k due downtimes).2 = [] := by
  induction due generalizing k downtimes with
  | nil =>
    rw [hp.nil]
    exact ⟨rfl, rfl⟩
  | cons e due ih =>
    obtain ⟨d, hd⟩ := Option.ne_none_iff_exists'.mp (hdes e List.mem_cons_self)
    have hne := hid e List.mem_cons_self
    have hkey : d.internalId = e.2 := hkeyed _ _ hd
    obtain ⟨hsame, hpub⟩ := ih (hp.step hkeyed hd (clock k)) (designate_tail hdes hnodup _)
      (List.nodup_cons.mp hnodup).2 (fun e' he' => hid e' (List.mem_cons_of_mem e he')) (k + 1)
    rw [hp.cons hkeyed hd]
    refine ⟨hsame.trans (Function.update_of_ne hne.symm _ _), ?_⟩
    exact (forId_cons_of_ne fun heq => hne (hkey.symm.trans ((hp.out_id d _).symm.trans heq))).trans
      hpub

/-- The loop publishes what is due, once. -/
theorem Passes.self (hp : Passes clock next out loop) (hkeyed : Keyed downtimes)
    (hdes : Designate due downtimes) (hnodup : (ids due).Nodup) {t : Int} (hmem : (t, id) ∈ due)
    (hd : downtimes id = some d) (k : Nat) :
    ∃ r, (loop k due downtimes).1 id = next d r ∧ forId id (loop k due downtimes).2 = [out d r] := by
  induction due generalizing k downtimes with
  | nil => exact absurd hmem List.not_mem_nil
  | cons e due ih =>
    obtain ⟨hnot, hrest⟩ := List.nodup_cons.mp hnodup
    have hdes' := designate_tail hdes hnodup
    rcases List.mem_cons.mp hmem with rfl | hmem
    · have hkey : d.internalId = id := hkeyed _ _ hd
      obtain ⟨hsame, hpub⟩ := hp.other (hp.step hkeyed hd (clock k)) (hdes' _) hrest
        (ne_of_not_mem_ids hnot) (k + 1)
      rw [hp.cons hkeyed hd]
      refine ⟨clock k, hsame.trans (Function.update_self _ _ _), ?_⟩
      rw [forId_cons_self ((hp.out_id d _).trans hkey), hpub]
    · have hne : id ≠ e.2 := fun heq => hnot (heq ▸ List.mem_map_of_mem (f := Prod.snd) hmem)
      obtain ⟨d', hd'⟩ := Option.ne_none_iff_exists'.mp (hdes e List.mem_cons_self)
      have hkey : d'.internalId = e.2 := hkeyed _ _ hd'
      obtain ⟨r, hnow, hpub⟩ := ih (hp.step hkeyed hd' (clock k)) (hdes' _)
        hrest hmem ((Function.update_of_ne hne _ _).trans hd) (k + 1)
      rw [hp.cons hkeyed hd']
      exact ⟨r, hnow, (forId_cons_of_ne
        fun heq => hne (heq.symm.trans ((hp.out_id d' _).trans hkey))).trans hpub⟩

end Passes

end Loops

/-! ## One operation -/

section Step

variable {s : Scheduler} {id : UInt32} {d : Downtime} {start finish : Option Int} {now : Int}
  {clock : Nat → Int}

/-- The indexes have an id at most once, and designate downtimes that are there, under their ids. -/
structure Inv (s : Scheduler) : Prop where
  keyed : Keyed s.downtimes
  startIds : (ids s.starts.entries).Nodup
  endIds : (ids s.ends.entries).Nodup
  startsDesignate : Designate s.starts.entries s.downtimes
  endsDesignate : Designate s.ends.entries s.downtimes

theorem inv_empty : empty.Inv where
  keyed _ _ h := absurd h (Option.some_ne_none _).symm
  startIds := List.nodup_nil
  endIds := List.nodup_nil
  startsDesignate := List.forall_mem_nil _
  endsDesignate := List.forall_mem_nil _

/-- No index has the id. -/
def Gone (s : Scheduler) (id : UInt32) : Prop :=
  (∀ e ∈ s.starts.entries, e.2 ≠ id) ∧ ∀ e ∈ s.ends.entries, e.2 ≠ id

/-- The downtime, and the times that the indexes have for it. -/
structure Shows (s : Scheduler) (id : UInt32) (d : Downtime) (start finish : Option Int) :
    Prop where
  stored : s.downtimes id = some d
  start : ∀ t, (t, id) ∈ s.starts.entries ↔ start = some t
  finish : ∀ t, (t, id) ∈ s.ends.entries ↔ finish = some t

theorem due_sublist (x : TimeIndex) (now : Int) : (x.due now).Sublist x.entries :=
  List.takeWhile_sublist _

theorem ahead_sublist (x : TimeIndex) (now : Int) : (x.ahead now).entries.Sublist x.entries :=
  List.dropWhile_sublist _

variable {x : TimeIndex}

theorem mem_insertIf {b : Bool} {t : Int} {e : Int × UInt32} :
    e ∈ (if b then x.insert t id else x).entries ↔ b = true ∧ e = (t, id) ∨ e ∈ x.entries := by
  cases b with
  | false => simp
  | true => simp [mem_insert]

theorem addDowntime_eq (h : d.startTime < d.endTime) (startTime endTime : Int) :
    s.addDowntime startTime endTime d =
      { downtimes := Function.update s.downtimes d.internalId (some d)
        starts :=
          if isNull d.actualStartTime then s.starts.insert startTime d.internalId else s.starts
        ends := if isNull d.actualEndTime then s.ends.insert endTime d.internalId else s.ends } :=
  if_neg (Int.not_le.mpr h)

theorem addDowntime_refused (h : ¬ d.startTime < d.endTime) (startTime endTime : Int) :
    s.addDowntime startTime endTime d = s := if_pos (Int.not_lt.mp h)

/-- After the first loop, what was there is there. -/
theorem Inv.startLoop (h : s.Inv) (now : Int) (clock : Nat → Int) :
    Keyed (startLoop clock 0 (s.starts.due now) s.downtimes).1 ∧
      ∀ id, s.downtimes id ≠ none →
        (Scheduler.startLoop clock 0 (s.starts.due now) s.downtimes).1 id ≠ none := by
  have hdes : Designate (s.starts.due now) s.downtimes :=
    fun e he => h.startsDesignate e ((due_sublist _ _).subset he)
  have hnodup := nodup_sublist (due_sublist s.starts now) h.startIds
  refine ⟨(passes_startLoop clock).keyed h.keyed hdes hnodup 0, fun id hid => ?_⟩
  by_cases hdue : ∃ e ∈ s.starts.due now, e.2 = id
  · obtain ⟨⟨t, i⟩, he, rfl⟩ := hdue
    obtain ⟨d, hd⟩ := Option.ne_none_iff_exists'.mp hid
    obtain ⟨r, hr, -⟩ := (passes_startLoop clock).self h.keyed hdes hnodup he hd 0
    rw [hr]
    exact Option.some_ne_none _
  · have hother : ∀ e ∈ s.starts.due now, e.2 ≠ id := fun e he heq => hdue ⟨e, he, heq⟩
    rw [((passes_startLoop clock).other h.keyed hdes hnodup hother 0).1]
    exact hid

/-- An operation that meets the condition keeps the indexes right. -/
theorem Inv.step (h : s.Inv) {op : Op} (hop : s.StepOk op) : (s.step op).Inv := by
  cases op with
  | addDowntime startTime endTime d =>
    rw [Scheduler.step]
    by_cases hlt : d.startTime < d.endTime
    · obtain ⟨hstart, hend⟩ := hop hlt
      rw [addDowntime_eq hlt]
      have hids : ∀ {b : Bool} {x : TimeIndex} {t : Int}, (ids x.entries).Nodup →
          (∀ e ∈ x.entries, e.2 ≠ d.internalId) →
          (ids (if b then x.insert t d.internalId else x).entries).Nodup := by
        intro b x t hnodup hnew
        split
        · exact nodup_insert hnodup hnew
        · exact hnodup
      have hdes : ∀ {b : Bool} {x : TimeIndex} {t : Int}, Designate x.entries s.downtimes →
          Designate (if b then x.insert t d.internalId else x).entries
            (Function.update s.downtimes d.internalId (some d)) := by
        intro b x t hdes e he
        rcases mem_insertIf.mp he with ⟨-, rfl⟩ | he
        · rw [Function.update_self]
          exact Option.some_ne_none d
        · exact designate_update hdes _ _ e he
      exact ⟨h.keyed.update (by rintro _ ⟨⟩; rfl), hids h.startIds hstart, hids h.endIds hend,
        hdes h.startsDesignate, hdes h.endsDesignate⟩
    · rwa [addDowntime_refused hlt]
  | removeDowntime id =>
    rw [Scheduler.step, removeDowntime]
    split
    · exact h
    · have hdes : ∀ {x : TimeIndex}, Designate x.entries s.downtimes →
          Designate (x.remove id).entries (Function.update s.downtimes id none) := by
        intro x hdes e he
        obtain ⟨hmem, hne⟩ := mem_remove.mp he
        rw [Function.update_of_ne hne]
        exact hdes e hmem
      exact ⟨h.keyed.update (fun _ h => by cases h), nodup_sublist List.filter_sublist h.startIds,
        nodup_sublist List.filter_sublist h.endIds, hdes h.startsDesignate, hdes h.endsDesignate⟩
  | processDowntimes now clock =>
    obtain ⟨hkeyed, hthere⟩ := h.startLoop now clock
    have hdes : Designate (s.ends.due now)
        (Scheduler.startLoop clock 0 (s.starts.due now) s.downtimes).1 :=
      fun e he => hthere e.2 (h.endsDesignate e ((due_sublist _ _).subset he))
    have hnodup := nodup_sublist (due_sublist s.ends now) h.endIds
    refine ⟨(passes_endLoop clock).keyed hkeyed hdes hnodup _, nodup_sublist (ahead_sublist _ _) h.startIds,
      nodup_sublist (ahead_sublist _ _) h.endIds, fun e he => ?_, fun e he => ?_⟩
    · obtain ⟨hmem, hlt⟩ := mem_ahead_iff.mp he
      have hother : ∀ e' ∈ s.ends.due now, e'.2 ≠ e.2 := by
        intro e' he' heq
        obtain ⟨hmem', hle⟩ := mem_due_iff.mp he'
        exact Int.not_le.mpr hlt (hop e' hmem' hle e hmem heq.symm)
      exact fun hnone => hthere e.2 (h.startsDesignate e hmem)
        (((passes_endLoop clock).other hkeyed hdes hnodup hother _).1.symm.trans hnone)
    · obtain ⟨hmem, hlt⟩ := mem_ahead_iff.mp he
      have hother : ∀ e' ∈ s.ends.due now, e'.2 ≠ e.2 := by
        intro e' he' heq
        obtain ⟨hmem', hle⟩ := mem_due_iff.mp he'
        obtain rfl := eq_of_nodup h.endIds hmem' hmem heq
        exact Int.not_le.mpr hlt hle
      exact fun hnone => hthere e.2 (h.endsDesignate e hmem)
        (((passes_endLoop clock).other hkeyed hdes hnodup hother _).1.symm.trans hnone)

/-- Whether a time, if there is one, has come. -/
def isDue (t : Option Int) (now : Int) : Bool := t.any (· ≤ now)

theorem mem_due_of_isDue {t : Option Int}
    (hx : ∀ u, (u, id) ∈ x.entries ↔ t = some u) (h : isDue t now = true) :
    ∃ u, (u, id) ∈ x.due now := by
  cases t with
  | none => cases h
  | some u => exact ⟨u, mem_due_iff.mpr ⟨(hx u).mpr rfl, of_decide_eq_true h⟩⟩

theorem ne_of_not_isDue {t : Option Int}
    (hx : ∀ u, (u, id) ∈ x.entries ↔ t = some u) (h : isDue t now = false) :
    ∀ e ∈ x.due now, e.2 ≠ id := by
  rintro ⟨u, i⟩ he rfl
  obtain ⟨hmem, hle⟩ := mem_due_iff.mp he
  rw [isDue, (hx u).mp hmem, Option.any_some, decide_eq_true hle] at h
  cases h

/-- What the first loop does for an id: it publishes the start when that is due. -/
theorem Shows.startLoop (h : s.Shows id d start finish) (hinv : s.Inv) (now : Int)
    (clock : Nat → Int) : ∃ d', (startLoop clock 0 (s.starts.due now) s.downtimes).1 id = some d' ∧
      d'.plain = d.plain ∧
      (forId id (Scheduler.startLoop clock 0 (s.starts.due now) s.downtimes).2).map
        Published.change = (if isDue start now then [.start] else []) ∧
      ∀ p ∈ forId id (Scheduler.startLoop clock 0 (s.starts.due now) s.downtimes).2,
        p.dwn.plain = d.plain := by
  have hdes : Designate (s.starts.due now) s.downtimes :=
    fun e he => hinv.startsDesignate e ((due_sublist _ _).subset he)
  have hnodup := nodup_sublist (due_sublist s.starts now) hinv.startIds
  cases hdue : isDue start now with
  | true =>
    obtain ⟨t, ht⟩ := mem_due_of_isDue h.start hdue
    obtain ⟨r, hr, hpub⟩ := (passes_startLoop clock).self hinv.keyed hdes hnodup ht h.stored 0
    refine ⟨_, hr, rfl, congrArg _ hpub, fun p hp => ?_⟩
    rw [hpub, List.mem_singleton] at hp
    rw [hp]
    rfl
  | false =>
    obtain ⟨hsame, hpub⟩ := (passes_startLoop clock).other hinv.keyed hdes hnodup
      (ne_of_not_isDue h.start hdue) 0
    rw [hpub]
    exact ⟨d, hsame.trans h.stored, rfl, rfl, List.forall_mem_nil _⟩

/-- What a pass does for an id: it publishes the start and the end when these are due, and has
nothing left for it after the end. -/
theorem Shows.process (h : s.Shows id d start finish) (hinv : s.Inv)
    (hop : s.StepOk (.processDowntimes now clock)) :
    ∃ d', d'.plain = d.plain ∧
      (forId id (s.processDowntimes now clock).2).map Published.change =
        (if isDue start now then [.start] else []) ++
          (if isDue finish now then [.finish] else []) ∧
      (∀ p ∈ forId id (s.processDowntimes now clock).2, p.dwn.plain = d.plain) ∧
      if isDue finish now then (s.processDowntimes now clock).1.Gone id
      else (s.processDowntimes now clock).1.Shows id d' (start.filter (now < ·)) finish := by
  obtain ⟨hkeyed, hthere⟩ := hinv.startLoop now clock
  obtain ⟨d', hd', hplain, hchange, hown⟩ := h.startLoop hinv now clock
  have hdes : Designate (s.ends.due now)
      (Scheduler.startLoop clock 0 (s.starts.due now) s.downtimes).1 :=
    fun e he => hthere e.2 (hinv.endsDesignate e ((due_sublist _ _).subset he))
  have hnodup := nodup_sublist (due_sublist s.ends now) hinv.endIds
  have hstart : ∀ t, (t, id) ∈ (s.starts.ahead now).entries ↔ start.filter (now < ·) = some t := by
    intro t
    rw [mem_ahead_iff, h.start, Option.filter_eq_some_iff, decide_eq_true_iff]
  refine ⟨d', hplain, ?_⟩
  rw [processDowntimes, forId_append, List.map_append, hchange]
  cases hdue : isDue finish now with
  | true =>
    obtain ⟨t, ht⟩ := mem_due_of_isDue h.finish hdue
    obtain ⟨r, -, hpub⟩ := (passes_endLoop clock).self hkeyed hdes hnodup ht hd'
      (s.starts.due now).length
    refine ⟨by rw [hpub]; rfl, fun p hp => ?_, ?_⟩
    · rcases List.mem_append.mp hp with hp | hp
      · exact hown p hp
      · rw [hpub, List.mem_singleton] at hp
        rw [hp]
        exact hplain
    · -- what is due to end was due to start, and an index has an id once
      obtain ⟨hmem, hle⟩ := mem_due_iff.mp ht
      rw [if_pos rfl]
      refine ⟨fun e he heq => ?_, fun e he heq => ?_⟩
      · obtain ⟨hmem', hlt⟩ := mem_ahead_iff.mp he
        exact Int.not_le.mpr hlt (hop (t, id) hmem hle e hmem' heq)
      · obtain ⟨hmem', hlt⟩ := mem_ahead_iff.mp he
        obtain rfl := eq_of_nodup hinv.endIds hmem' hmem heq
        exact Int.not_le.mpr hlt hle
  | false =>
    obtain ⟨hsame, hpub⟩ := (passes_endLoop clock).other hkeyed hdes hnodup
      (ne_of_not_isDue h.finish hdue) (s.starts.due now).length
    rw [hpub, List.append_nil]
    refine ⟨rfl, hown, ?_⟩
    rw [if_neg Bool.false_ne_true]
    refine ⟨hsame.trans hd', hstart, fun t => ?_⟩
    rw [mem_ahead_iff, h.finish, and_iff_left_iff_imp]
    rintro rfl
    simpa [isDue] using hdue

/-- What is due to end was due to start. -/
theorem Shows.isDue_start {t : Int} (h : s.Shows id d (some t) finish)
    (hop : s.StepOk (.processDowntimes now clock)) (hdue : isDue finish now = true) :
    isDue (some t) now = true := by
  obtain ⟨u, hu⟩ := mem_due_of_isDue h.finish hdue
  obtain ⟨hmem, hle⟩ := mem_due_iff.mp hu
  exact decide_eq_true (hop (u, id) hmem hle (t, id) ((h.start t).mpr rfl) rfl)

/-- What is not in the indexes is left alone. -/
theorem Gone.step (h : s.Gone id) (hinv : s.Inv) {op : Op} (hadds : ¬ op.Adds id) :
    (s.step op).Gone id ∧ forId id (s.publishes op) = [] := by
  cases op with
  | addDowntime startTime endTime d =>
    refine ⟨?_, rfl⟩
    rw [Scheduler.step]
    by_cases hlt : d.startTime < d.endTime
    · rw [addDowntime_eq hlt]
      have hne : d.internalId ≠ id := fun he => hadds ⟨hlt, he⟩
      refine ⟨fun e he => ?_, fun e he => ?_⟩
      · rcases mem_insertIf.mp he with ⟨-, rfl⟩ | he
        · exact hne
        · exact h.1 e he
      · rcases mem_insertIf.mp he with ⟨-, rfl⟩ | he
        · exact hne
        · exact h.2 e he
    · rwa [addDowntime_refused hlt]
  | removeDowntime i =>
    refine ⟨?_, rfl⟩
    rw [Scheduler.step, removeDowntime]
    split
    · exact h
    · exact ⟨fun e he => h.1 e (mem_remove.mp he).1, fun e he => h.2 e (mem_remove.mp he).1⟩
  | processDowntimes now clock =>
    obtain ⟨hkeyed, hthere⟩ := hinv.startLoop now clock
    have hdes := fun e he => hinv.startsDesignate e ((due_sublist s.starts now).subset he)
    have hdes' := fun e he => hthere e.2 (hinv.endsDesignate e ((due_sublist s.ends now).subset he))
    have hnodup := nodup_sublist (due_sublist s.ends now) hinv.endIds
    have hstarts := ((passes_startLoop clock).other hinv.keyed hdes
      (nodup_sublist (due_sublist _ _) hinv.startIds)
      (fun e he => h.1 e ((due_sublist s.starts now).subset he)) 0).2
    have hends := ((passes_endLoop clock).other hkeyed hdes' hnodup
      (fun e he => h.2 e ((due_sublist s.ends now).subset he)) (s.starts.due now).length).2
    refine ⟨⟨fun e he => h.1 e (mem_ahead_iff.mp he).1,
      fun e he => h.2 e (mem_ahead_iff.mp he).1⟩, ?_⟩
    rw [publishes, processDowntimes, forId_append, hstarts, hends]
    rfl

/-- What an operation on another id leaves as it is. -/
theorem Shows.step_other (h : s.Shows id d start finish) {op : Op} (hadds : ¬ op.Adds id)
    (hremoves : ¬ op.Removes id) (hprocess : ∀ now clock, op ≠ .processDowntimes now clock) :
    (s.step op).Shows id d start finish := by
  cases op with
  | addDowntime startTime endTime d' =>
    rw [Scheduler.step]
    by_cases hlt : d'.startTime < d'.endTime
    · rw [addDowntime_eq hlt]
      have hne : id ≠ d'.internalId := fun he => hadds ⟨hlt, he.symm⟩
      have hentry : ∀ {b : Bool} {x : TimeIndex} {u t : Int},
          (t, id) ∈ (if b then x.insert u d'.internalId else x).entries ↔ (t, id) ∈ x.entries := by
        intro b x u t
        rw [mem_insertIf, or_iff_right]
        exact fun he => hne (Prod.mk.inj he.2).2
      exact ⟨(Function.update_of_ne hne _ _).trans h.stored, fun t => hentry.trans (h.start t),
        fun t => hentry.trans (h.finish t)⟩
    · rwa [addDowntime_refused hlt]
  | removeDowntime i =>
    rw [Scheduler.step, removeDowntime]
    split
    · exact h
    · have hne : id ≠ i := fun he => hremoves he.symm
      have hentry : ∀ {x : TimeIndex} {t : Int},
          (t, id) ∈ (x.remove i).entries ↔ (t, id) ∈ x.entries :=
        mem_remove.trans (and_iff_left hne)
      exact ⟨(Function.update_of_ne hne _ _).trans h.stored, fun t => hentry.trans (h.start t),
        fun t => hentry.trans (h.finish t)⟩
  | processDowntimes now clock => exact absurd rfl (hprocess now clock)

end Step

/-! ## Runs -/

section Run

variable {s : Scheduler} {id : UInt32} {d : Downtime} {start finish : Option Int} {ops : List Op}

theorem Gone.run (h : s.Gone id) (hinv : s.Inv) (hops : EachStep Scheduler.step StepOk s ops)
    (hadds : ∀ op ∈ ops, ¬ op.Adds id) : forId id (published s ops) = [] := by
  induction ops generalizing s with
  | nil => rfl
  | cons op ops ih =>
    obtain ⟨hgone, hpub⟩ := h.step hinv (hadds op List.mem_cons_self)
    rw [published, forId_append, hpub, List.nil_append]
    exact ih hgone (hinv.step hops.1) hops.2 fun op' h' => hadds op' (List.mem_cons_of_mem op h')

theorem comes_cons_process (t : Option Int) (now : Int) (clock : Nat → Int) (ops : List Op) :
    comes t (.processDowntimes now clock :: ops) = (isDue t now || comes t ops) := by
  cases t <;> rfl

theorem comes_cons_other (t : Option Int) {op : Op}
    (hprocess : ∀ now clock, op ≠ .processDowntimes now clock) (ops : List Op) :
    comes t (op :: ops) = comes t ops := by
  cases op with
  | addDowntime => cases t <;> rfl
  | removeDowntime => cases t <;> rfl
  | processDowntimes now clock => exact absurd rfl (hprocess now clock)

/-- What is not due is ahead. -/
theorem filter_of_not_isDue {t : Option Int} {now : Int} (h : isDue t now = false) :
    t.filter (now < ·) = t := by
  cases t with
  | none => rfl
  | some t =>
    rw [Option.filter_some, if_pos]
    simpa [isDue] using h

theorem filter_of_isDue {t : Option Int} {now : Int} (h : isDue t now = true) :
    t.filter (now < ·) = none := by
  cases t with
  | none => rfl
  | some t =>
    rw [Option.filter_some, if_neg]
    simpa [isDue] using h

theorem OnceEach.of_plain {d' : Downtime} {pub : List Published}
    (h : OnceEach d' start finish ops pub) (hplain : d'.plain = d.plain) :
    OnceEach d start finish ops pub := ⟨h.changes, fun p hp => (h.own p hp).trans hplain⟩

/-- From any state in which it is to be started and ended, a downtime is published as it should. -/
theorem Shows.run (h : s.Shows id d start finish) (hinv : s.Inv)
    (hops : EachStep Scheduler.step StepOk s ops)
    (hother : ∀ op ∈ ops, ¬ op.Adds id ∧ ¬ op.Removes id) :
    OnceEach d start finish ops (forId id (published s ops)) := by
  induction ops generalizing s d start with
  | nil => exact ⟨by cases start <;> cases finish <;> rfl, List.forall_mem_nil _⟩
  | cons op ops ih =>
    have hrest : ∀ op' ∈ ops, ¬ op'.Adds id ∧ ¬ op'.Removes id :=
      fun op' h' => hother op' (List.mem_cons_of_mem op h')
    obtain ⟨hadds, hremoves⟩ := hother op List.mem_cons_self
    rw [published, forId_append]
    by_cases hprocess : ∃ now clock, op = .processDowntimes now clock
    · obtain ⟨now, clock, rfl⟩ := hprocess
      obtain ⟨d', hplain, hchange, hown, hnext⟩ := h.process hinv hops.1
      cases hdue : isDue finish now with
      | true =>
        rw [hdue, if_pos rfl] at hnext
        have hnone := Gone.run hnext (hinv.step hops.1) hops.2 fun op' h' => (hrest op' h').1
        rw [Scheduler.step, hnone, List.append_nil]
        refine ⟨?_, hown⟩
        rw [publishes, hchange, comes_cons_process, comes_cons_process, hdue, Bool.true_or]
        cases start with
        | none => rfl
        | some t =>
          rw [h.isDue_start hops.1 hdue, Bool.true_or]
      | false =>
        rw [hdue, if_neg Bool.false_ne_true] at hnext
        obtain ⟨hchanges, howns⟩ := (ih hnext (hinv.step hops.1) hops.2 hrest).of_plain hplain
        refine ⟨?_, fun p hp => (List.mem_append.mp hp).elim (hown p) (howns p)⟩
        rw [Scheduler.step, publishes, List.map_append, hchange, hchanges, comes_cons_process,
          comes_cons_process, hdue, Bool.false_or]
        -- a start is published now or stays as it is
        cases hstart : isDue start now with
        | true =>
          rw [filter_of_isDue hstart]
          rfl
        | false =>
          rw [filter_of_not_isDue hstart]
          rfl
    · have hprocess : ∀ now clock, op ≠ .processDowntimes now clock :=
        fun now clock he => hprocess ⟨now, clock, he⟩
      have hpub : s.publishes op = [] := by
        cases op with
        | addDowntime => rfl
        | removeDowntime => rfl
        | processDowntimes now clock => exact absurd rfl (hprocess now clock)
      obtain ⟨hchanges, howns⟩ := ih (h.step_other hadds hremoves hprocess) (hinv.step hops.1)
        hops.2 hrest
      rw [hpub]
      refine ⟨?_, howns⟩
      rw [comes_cons_other start hprocess, comes_cons_other finish hprocess]
      exact hchanges

theorem gone_removeDowntime (hinv : s.Inv) (id : UInt32) : (s.removeDowntime id).Gone id := by
  rw [removeDowntime]
  split
  · rename_i hnone
    exact ⟨fun e he heq => hinv.startsDesignate e he (heq ▸ hnone),
      fun e he heq => hinv.endsDesignate e he (heq ▸ hnone)⟩
  · exact ⟨fun e he => (mem_remove.mp he).2, fun e he => (mem_remove.mp he).2⟩

/-- A downtime that is added is to be started and ended, unless it already was. -/
theorem shows_addDowntime {startTime endTime : Int}
    (hop : s.StepOk (.addDowntime startTime endTime d))
    (hlt : d.startTime < d.endTime) : (s.addDowntime startTime endTime d).Shows d.internalId d
      (if isNull d.actualStartTime then some startTime else none)
      (if isNull d.actualEndTime then some endTime else none) := by
  obtain ⟨hstart, hend⟩ := hop hlt
  have hentry : ∀ {b : Bool} {x : TimeIndex} {u : Int}, (∀ e ∈ x.entries, e.2 ≠ d.internalId) →
      ∀ t, (t, d.internalId) ∈ (if b then x.insert u d.internalId else x).entries ↔
        (if b then some u else none) = some t := by
    intro b x u hnew t
    rw [mem_insertIf, or_iff_left fun hmem => hnew _ hmem rfl]
    cases b with
    | false => simp
    | true => simp [eq_comm]
  rw [addDowntime_eq hlt]
  exact ⟨Function.update_self _ _ _, hentry hstart, hentry hend⟩

/-- **The downtime scheduler.** As long as no downtime is added while an index has its id, and none
is due to end before it is due to start, each is published once when its times come, as it was
added, nothing is published for others, and the indexes designate downtimes that are there. -/
theorem faithful_run (ops : List Op) (h : EachStep step StepOk empty ops) :
    ∀ ops', ops' <+: ops → Faithful ops' := by
  rintro ops' ⟨rest, rfl⟩
  have hops := h.append.1
  have hinv : ∀ {pre : List Op}, EachStep step StepOk empty pre → (pre.foldl step empty).Inv :=
    fun hpre => hpre.invariant (fun _ _ hs hop => hs.step hop) inv_empty
  refine ⟨?_, ?_, ?_, (hinv hops).startsDesignate, (hinv hops).endsDesignate⟩
  · rintro pre startTime endTime d post rfl hlt hother
    obtain ⟨hpre, hadd, hpost⟩ := hops.append
    exact (shows_addDowntime hadd hlt).run ((hinv hpre).step hadd) hpost hother
  · rintro pre id post rfl hadds
    obtain ⟨hpre, hremove, hpost⟩ := hops.append
    exact (gone_removeDowntime (hinv hpre) id).run ((hinv hpre).step hremove) hpost hadds
  · intro id hadds
    exact Gone.run ⟨List.forall_mem_nil _, List.forall_mem_nil _⟩ inv_empty hops hadds

/-- A downtime of a host from 10 to 20. -/
def tenToTwenty : Downtime := { internalId := 1, hostId := 1, startTime := 10, endTime := 20 }

/-- It is added, and there is a pass at each of its times. -/
def startedAndEnded : List Op :=
  [.addDowntime 10 20 tenToTwenty, .processDowntimes 10 fun _ => 10,
    .processDowntimes 20 fun _ => 20]

theorem faithful_run_tenToTwenty : Faithful startedAndEnded :=
  faithful_run startedAndEnded ⟨fun _ => ⟨List.forall_mem_nil _, List.forall_mem_nil _⟩,
    List.forall_mem_singleton.mpr fun hle => absurd hle (by decide),
    fun _ _ _ => List.forall_mem_nil _, trivial⟩ startedAndEnded (List.prefix_refl _)

/-- The readings of the clock are not before this time, nor before the ones that come earlier. -/
def NonDecreasing : Int → List Op → Prop
  | _, [] => True
  | t, .processDowntimes now clock :: ops =>
    t ≤ now ∧ now ≤ clock 0 ∧ (∀ k, clock k ≤ clock (k + 1)) ∧ ∀ k, NonDecreasing (clock k) ops
  | t, _ :: ops => NonDecreasing t ops

/-- Added twice, a downtime is started twice. -/
theorem not_faithful_run : ¬ ∀ t ops, NonDecreasing t ops → Faithful ops := by
  intro h
  have hfaithful := h 0 [.addDowntime 10 20 tenToTwenty, .addDowntime 10 20 tenToTwenty,
    .processDowntimes 10 fun _ => 10]
    ⟨by decide, by decide, fun _ => Int.le_refl _, fun _ => trivial⟩
  have honce := hfaithful.added [.addDowntime 10 20 tenToTwenty] 10 20 tenToTwenty
    [.processDowntimes 10 fun _ => 10] rfl (by decide)
    (List.forall_mem_singleton.mpr ⟨fun h => h, fun h => h⟩)
  exact absurd (congrArg List.length honce.changes) (by decide)

end Run

end Scheduler

end CentreonBroker.Neb
