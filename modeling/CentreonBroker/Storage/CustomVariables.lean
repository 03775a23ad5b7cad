import Mathlib

/-!
# Custom variables

The insertion of a custom variable waits in a queue, for one query that inserts many. The deletion
of one and a change of its value are run at once, whatever waits in the queue. The table is what
the events would have made of it one by one as long as none of them overtakes an insertion of the
same variable that it changes.
-/

namespace CentreonBroker.Storage.CustomVariables

/-- `neb::custom_variable_status`. -/
structure CustomVariableStatus where
  host_id : ℕ
  modified : Bool
  name : String
  service_id : ℕ
  update_time : ℤ
  value : String

/-- `neb::custom_variable`. -/
structure CustomVariable extends CustomVariableStatus where
  default_value : String
  enabled : Bool
  var_type : ℤ

/-- The columns `host_id`, `service_id` and `name`. -/
abbrev Key := ℕ × ℕ × String

/-- The other columns. -/
structure Row where
  default_value : Option String
  modified : Bool
  type : Option ℤ
  update_time : Option ℤ
  value : String
  deriving DecidableEq

abbrev Table := Key → Option Row

/-- What the columns keep of a text: where it is part of a query, and where it is bound. -/
structure Columns where
  escape_name : String → String
  escape_default_value : String → String
  escape_value : String → String
  cut_name : String → String
  cut_value : String → String

inductive Event where
  | custom_variable (cv : CustomVariable)
  | custom_variable_status (cv : CustomVariableStatus)

/-! ## The statements -/

def invalid_on_minus_one (t : ℤ) : Option ℤ := if t = -1 then none else some t

/-- A row of `INSERT INTO customvariables`. -/
def insertKey (c : Columns) (cv : CustomVariable) : Key :=
  (cv.host_id, cv.service_id, c.escape_name cv.name)

def insertRow (c : Columns) (cv : CustomVariable) : Row where
  default_value := some (c.escape_default_value cv.default_value)
  modified := cv.modified
  type := some cv.var_type
  update_time := some cv.update_time
  value := c.escape_value cv.value

/-- `ON DUPLICATE KEY UPDATE` writes all the other columns. -/
def insert (T : Table) (p : Key × Row) : Table := Function.update T p.1 (some p.2)

/-- `_custom_variable_delete`. -/
def deleteKey (cv : CustomVariable) : Key := (cv.host_id, cv.service_id, cv.name)

def delete (T : Table) (cv : CustomVariable) : Table := Function.update T (deleteKey cv) none

/-- `_custom_variable_status_insupdate`. The variables of a host have the service 0: `invalid_on_zero`
does not turn an unsigned 0 into NULL. -/
def statusKey (c : Columns) (cv : CustomVariableStatus) : Key :=
  (cv.host_id, cv.service_id, c.cut_name cv.name)

/-- It writes three columns, the others of a new row are NULL. -/
def statusRow (c : Columns) (old : Option Row) (cv : CustomVariableStatus) : Row where
  default_value := old.bind Row.default_value
  modified := cv.modified
  type := old.bind Row.type
  update_time := invalid_on_minus_one cv.update_time
  value := c.cut_value cv.value

def insupdate (c : Columns) (T : Table) (cv : CustomVariableStatus) : Table :=
  Function.update T (statusKey c cv) (some (statusRow c (T (statusKey c cv)) cv))

/-! ## The manager -/

structure Manager where
  customvariables : Table
  cv_queue : List (Key × Row)

namespace Manager

/-- `_process_custom_variable`. -/
def process_custom_variable (c : Columns) (m : Manager) (cv : CustomVariable) : Manager :=
  if cv.enabled then { m with cv_queue := m.cv_queue ++ [(insertKey c cv, insertRow c cv)] }
  else { m with customvariables := delete m.customvariables cv }

/-- `_process_custom_variable_status`. -/
def process_custom_variable_status (c : Columns) (m : Manager) (cv : CustomVariableStatus) : Manager :=
  { m with customvariables := insupdate c m.customvariables cv }

/-- `_update_customvariables`: the rows of one query are inserted in order. -/
def update_customvariables (m : Manager) : Manager where
  customvariables := m.cv_queue.foldl insert m.customvariables
  cv_queue := []

def process (c : Columns) (m : Manager) : Event → Manager
  | .custom_variable cv => m.process_custom_variable c cv
  | .custom_variable_status cv => m.process_custom_variable_status c cv

end Manager

inductive Action where
  | event (e : Event)
  | flush

def Manager.step (c : Columns) (m : Manager) : Action → Manager
  | .event e => m.process c e
  | .flush => m.update_customvariables

def Manager.run (c : Columns) (acts : List Action) (m : Manager) : Manager := acts.foldl (step c) m

/-- An event, where nothing waits. -/
def apply (c : Columns) (T : Table) : Event → Table
  | .custom_variable cv =>
    if cv.enabled then insert T (insertKey c cv, insertRow c cv) else delete T cv
  | .custom_variable_status cv => insupdate c T cv

/-- The events of a run. -/
def events (acts : List Action) : List Event :=
  acts.filterMap fun
    | .event e => some e
    | .flush => none

/-- The events since the last query for the queue. -/
def interval (acts : List Action) : List Event :=
  acts.foldl (fun seg a => match a with
    | .event e => seg ++ [e]
    | .flush => []) []

/-! ## What the events do to one variable -/

variable {c : Columns} {k : Key}

/-- The event inserts the variable. -/
def inserts (c : Columns) (k : Key) : Event → Bool
  | .custom_variable cv => cv.enabled && insertKey c cv = k
  | .custom_variable_status _ => false

/-- The event deletes it. -/
def deletes (k : Key) : Event → Bool
  | .custom_variable cv => !cv.enabled && deleteKey cv = k
  | .custom_variable_status _ => false

/-- The event writes its value. -/
def status (c : Columns) (k : Key) : Event → Option CustomVariableStatus
  | .custom_variable _ => none
  | .custom_variable_status cv => if statusKey c cv = k then some cv else none

/-- The value that is written is the one that the row has. -/
def Agrees (c : Columns) (r : Row) (cv : CustomVariableStatus) : Prop :=
  cv.modified = r.modified ∧ invalid_on_minus_one cv.update_time = r.update_time ∧
    c.cut_value cv.value = r.value

/-- What came after the last insertion of each variable that is in the queue leaves it as it is: no
deletion, and the last of the values is the one inserted. -/
def Kept (c : Columns) (seg : List Event) : Prop :=
  ∀ before cv after, seg = before ++ .custom_variable cv :: after → cv.enabled = true →
    (∀ e ∈ after, inserts c (insertKey c cv) e = false) →
      (∀ e ∈ after, deletes (insertKey c cv) e = false) ∧
      ∀ s, (after.filterMap (status c (insertKey c cv))).getLast? = some s →
        Agrees c (insertRow c cv) s

/-- An event that does not insert the variable. -/
inductive Changes (c : Columns) (k : Key) (T : Table) (e : Event) : Prop where
  | deleted (h : deletes k e = true) (hs : status c k e = none) (ht : apply c T e k = none)
  | updated (cv : CustomVariableStatus) (h : deletes k e = false) (hs : status c k e = some cv)
      (ht : apply c T e k = some (statusRow c (T k) cv))
  | other (h : deletes k e = false) (hs : status c k e = none) (ht : apply c T e k = T k)

theorem changes {e : Event} (h : inserts c k e = false) (T : Table) : Changes c k T e := by
  cases e with
  | custom_variable cv =>
    cases henabled : cv.enabled with
    | true =>
      have hne : insertKey c cv ≠ k := by
        intro heq
        simp [inserts, henabled, heq] at h
      refine .other (by simp [deletes, henabled]) rfl ?_
      simp only [apply, henabled, if_true, insert]
      exact Function.update_of_ne (Ne.symm hne) _ _
    | false =>
      by_cases hkey : deleteKey cv = k
      · subst hkey
        refine .deleted (by simp [deletes, henabled]) rfl ?_
        simp [apply, henabled, delete]
      · refine .other (by simp [deletes, hkey]) rfl ?_
        simp only [apply, henabled, delete]
        exact Function.update_of_ne (Ne.symm hkey) _ _
  | custom_variable_status cv =>
    by_cases hkey : statusKey c cv = k
    · subst hkey
      refine .updated cv rfl (by simp [status]) ?_
      simp [apply, insupdate]
    · refine .other rfl (by simp [status, hkey]) ?_
      exact Function.update_of_ne (Ne.symm hkey) _ _

theorem apply_inserts {e : Event} (h : inserts c k e = true) (T : Table) :
    ∃ cv, e = .custom_variable cv ∧ cv.enabled = true ∧ insertKey c cv = k ∧
      apply c T e k = some (insertRow c cv) := by
  cases e with
  | custom_variable cv =>
    simp only [inserts, Bool.and_eq_true, decide_eq_true_eq] at h
    obtain ⟨henabled, rfl⟩ := h
    exact ⟨cv, rfl, henabled, rfl, by simp [apply, henabled, insert]⟩
  | custom_variable_status cv => cases h

variable {T : Table}

/-- What an event makes of a variable depends on that variable only. -/
theorem apply_congr {T' : Table} (h : T k = T' k) (e : Event) : apply c T e k = apply c T' e k := by
  cases hins : inserts c k e with
  | true =>
    obtain ⟨cv, rfl, -, -, ht⟩ := apply_inserts hins T
    obtain ⟨cv', heq, -, -, ht'⟩ := apply_inserts hins T'
    cases heq
    rw [ht, ht']
  | false =>
    cases changes hins T with
    | deleted hdel _ ht =>
      cases changes hins T' with
      | deleted _ _ ht' => rw [ht, ht']
      | updated _ h' => rw [hdel] at h'; cases h'
      | other h' => rw [hdel] at h'; cases h'
    | updated cv hdel hs ht =>
      cases changes hins T' with
      | deleted h' => rw [hdel] at h'; cases h'
      | updated cv' _ hs' ht' =>
        rw [hs] at hs'
        cases hs'
        rw [ht, ht', h]
      | other _ hs' => rw [hs] at hs'; cases hs'
    | other hdel hs ht =>
      cases changes hins T' with
      | deleted h' => rw [hdel] at h'; cases h'
      | updated _ _ hs' => rw [hs] at hs'; cases hs'
      | other _ _ ht' => rw [ht, ht', h]

variable {after : List Event}

/-- Where the variable is not inserted again, its column `default_value` shows a deletion. -/
theorem foldl_apply_kept {r : Row} (hr : T k = some r)
    (hnone : ∀ e ∈ after, inserts c k e = false) (hdel : ∀ e ∈ after, deletes k e = false) :
    ∃ r', after.foldl (apply c) T k = some r' ∧ r'.default_value = r.default_value ∧
      r'.type = r.type := by
  induction after using List.reverseRecOn with
  | nil => exact ⟨r, hr, rfl, rfl⟩
  | append_singleton after e ih =>
    obtain ⟨r', hr', hdefault, htype⟩ := ih
      (fun e he => hnone e (List.mem_append_left _ he)) fun e he => hdel e (List.mem_append_left _ he)
    rw [List.foldl_concat]
    cases changes (hnone e (List.mem_append_right _ List.mem_cons_self))
      (after.foldl (apply c) T) with
    | deleted h =>
      rw [hdel e (List.mem_append_right _ List.mem_cons_self)] at h
      cases h
    | updated cv _ _ ht =>
      rw [ht, hr']
      exact ⟨_, rfl, hdefault, htype⟩
    | other _ _ ht =>
      rw [ht]
      exact ⟨r', hr', hdefault, htype⟩

theorem foldl_apply_deleted
    (hnone : ∀ e ∈ after, inserts c k e = false) (hdel : ∃ e ∈ after, deletes k e = true) {r : Row}
    (hr : after.foldl (apply c) T k = some r) : r.default_value = none := by
  induction after using List.reverseRecOn generalizing r with
  | nil =>
    obtain ⟨e, he, -⟩ := hdel
    cases he
  | append_singleton after e ih =>
    have hnone' : ∀ e ∈ after, inserts c k e = false :=
      fun e he => hnone e (List.mem_append_left _ he)
    have hbefore : deletes k e = false → ∃ e ∈ after, deletes k e = true := by
      intro h
      obtain ⟨e', he', hdel'⟩ := hdel
      rcases List.mem_append.mp he' with he' | he'
      · exact ⟨e', he', hdel'⟩
      · rw [List.mem_singleton.mp he', h] at hdel'
        cases hdel'
    rw [List.foldl_concat] at hr
    cases changes (hnone e (List.mem_append_right _ List.mem_cons_self))
      (after.foldl (apply c) T) with
    | deleted _ _ ht =>
      rw [ht] at hr
      cases hr
    | updated cv h _ ht =>
      rw [ht] at hr
      cases hr
      cases hold : after.foldl (apply c) T k with
      | none => rfl
      | some old =>
        have hdefault := ih hnone' (hbefore h) hold
        exact hdefault
    | other h _ ht =>
      rw [ht] at hr
      exact ih hnone' (hbefore h) hr

/-- What comes after an insertion, and does not insert the variable again, leaves the row as it was
if and only if it deletes nothing, and last writes the value that was there. -/
theorem foldl_apply_eq_iff {r : Row} (hr : T k = some r)
    (hdefault : r.default_value ≠ none) (hnone : ∀ e ∈ after, inserts c k e = false) :
    after.foldl (apply c) T k = some r ↔ (∀ e ∈ after, deletes k e = false) ∧
      ∀ s, (after.filterMap (status c k)).getLast? = some s → Agrees c r s := by
  by_cases hdel : ∀ e ∈ after, deletes k e = false
  · refine Iff.trans ?_ (and_iff_right hdel).symm
    induction after using List.reverseRecOn with
    | nil =>
      refine iff_of_true hr ?_
      intro s hs
      cases hs
    | append_singleton after e ih =>
      have hnone' : ∀ e ∈ after, inserts c k e = false :=
        fun e he => hnone e (List.mem_append_left _ he)
      have hdel' : ∀ e ∈ after, deletes k e = false :=
        fun e he => hdel e (List.mem_append_left _ he)
      rw [List.foldl_concat, List.filterMap_append]
      cases changes (hnone e (List.mem_append_right _ List.mem_cons_self))
        (after.foldl (apply c) T) with
      | deleted h =>
        rw [hdel e (List.mem_append_right _ List.mem_cons_self)] at h
        cases h
      | updated cv _ hs ht =>
        -- the other columns are as they were
        obtain ⟨r', hr', hdefault', htype'⟩ := foldl_apply_kept hr hnone' hdel'
        have hlast : (after.filterMap (status c k) ++ [e].filterMap (status c k)).getLast? =
            some cv := by simp [hs]
        rw [ht, hr', hlast]
        constructor
        · intro heq s hcv
          cases hcv
          cases heq
          exact ⟨rfl, rfl, rfl⟩
        · intro hagrees
          obtain ⟨hmodified, htime, hvalue⟩ := hagrees cv rfl
          congr 1
          obtain ⟨d, m, ty, t, v⟩ := r
          simp only [statusRow, Option.bind_some, Row.mk.injEq]
          exact ⟨hdefault', hmodified, htype', htime, hvalue⟩
      | other _ hs ht =>
        have hlast : [e].filterMap (status c k) = [] := by simp [hs]
        rw [ht, hlast, List.append_nil]
        exact ih hnone' hdel'
  · refine iff_of_false ?_ (fun h => hdel h.1)
    intro heq
    push Not at hdel
    obtain ⟨e, he, hdeletes⟩ := hdel
    exact hdefault (foldl_apply_deleted hnone ⟨e, he, by simpa using hdeletes⟩ heq)

/-! ## What the manager makes of the events -/

/-- The table once the queue is flushed. -/
def Manager.flushed (m : Manager) : Table := m.update_customvariables.customvariables

theorem foldl_insert_of_ne {queue : List (Key × Row)} (h : ∀ p ∈ queue, p.1 ≠ k) (T : Table) :
    queue.foldl insert T k = T k := by
  induction queue using List.reverseRecOn with
  | nil => rfl
  | append_singleton queue p ih =>
    rw [List.foldl_concat, insert, Function.update_of_ne
      (Ne.symm (h p (List.mem_append_right _ List.mem_cons_self)))]
    exact ih fun p hp => h p (List.mem_append_left _ hp)

/-- The manager after the events of an interval. -/
def processed (c : Columns) (T : Table) (seg : List Event) : Manager :=
  seg.foldl (Manager.process c) ⟨T, []⟩

/-- An event that does not insert the variable adds no row of it, and is run at once. -/
theorem process_other {e : Event} (h : inserts c k e = false) (m : Manager) :
    (∃ rest, (m.process c e).cv_queue = m.cv_queue ++ rest ∧ ∀ p ∈ rest, p.1 ≠ k) ∧
      (m.process c e).customvariables k = apply c m.customvariables e k := by
  cases e with
  | custom_variable cv =>
    simp only [Manager.process, Manager.process_custom_variable, apply]
    cases henabled : cv.enabled with
    | true =>
      have hne : insertKey c cv ≠ k := by
        intro heq
        simp [inserts, henabled, heq] at h
      refine ⟨⟨[(insertKey c cv, insertRow c cv)], rfl, ?_⟩, ?_⟩
      · intro p hp
        rw [List.mem_singleton.mp hp]
        exact hne
      · exact (Function.update_of_ne (Ne.symm hne) _ _).symm
    | false => exact ⟨⟨[], (List.append_nil _).symm, by simp⟩, rfl⟩
  | custom_variable_status cv => exact ⟨⟨[], (List.append_nil _).symm, by simp⟩, rfl⟩

/-- Without an insertion the events are run as they come. -/
theorem processed_of_not_inserts {seg : List Event}
    (h : ∀ e ∈ seg, inserts c k e = false) :
    (∀ p ∈ (processed c T seg).cv_queue, p.1 ≠ k) ∧
      (processed c T seg).customvariables k = seg.foldl (apply c) T k := by
  induction seg using List.reverseRecOn with
  | nil => exact ⟨fun _ hp => absurd hp List.not_mem_nil, rfl⟩
  | append_singleton seg e ih =>
    have he := h e (List.mem_append_right _ List.mem_cons_self)
    obtain ⟨hqueue, htable⟩ := ih fun e he => h e (List.mem_append_left _ he)
    obtain ⟨⟨rest, hrest, hne⟩, hrun⟩ := process_other he (processed c T seg)
    have hsame : apply c (processed c T seg).customvariables e k =
        apply c (seg.foldl (apply c) T) e k := apply_congr htable e
    rw [processed, List.foldl_concat, List.foldl_concat]
    refine ⟨?_, hrun.trans hsame⟩
    intro p hp
    rw [show seg.foldl (Manager.process c) ⟨T, []⟩ = processed c T seg from rfl, hrest] at hp
    rcases List.mem_append.mp hp with hp | hp
    · exact hqueue p hp
    · exact hne p hp

/-- After the last insertion of a variable its row waits, whatever is run. -/
theorem flushed_of_inserts {before : List Event} {cv : CustomVariable}
    (henabled : cv.enabled = true) (h : ∀ e ∈ after, inserts c (insertKey c cv) e = false) :
    (processed c T (before ++ .custom_variable cv :: after)).flushed (insertKey c cv) =
      some (insertRow c cv) := by
  have hqueue : ∃ front rest,
      (processed c T (before ++ .custom_variable cv :: after)).cv_queue =
        front ++ (insertKey c cv, insertRow c cv) :: rest ∧ ∀ p ∈ rest, p.1 ≠ insertKey c cv := by
    induction after using List.reverseRecOn with
    | nil =>
      refine ⟨(processed c T before).cv_queue, [], ?_, by simp⟩
      rw [processed, List.foldl_concat]
      simp only [Manager.process, Manager.process_custom_variable, henabled, if_true]
      rfl
    | append_singleton after e ih =>
      obtain ⟨front, rest, heq, hne⟩ := ih fun e he => h e (List.mem_append_left _ he)
      obtain ⟨⟨rest', hrest', hne'⟩, -⟩ := process_other
        (h e (List.mem_append_right _ List.mem_cons_self))
        (processed c T (before ++ .custom_variable cv :: after))
      refine ⟨front, rest ++ rest', ?_, ?_⟩
      · rw [← List.cons_append, ← List.append_assoc, processed, List.foldl_concat]
        refine hrest'.trans ?_
        rw [heq, List.append_assoc, List.cons_append]
      · intro p hp
        rcases List.mem_append.mp hp with hp | hp
        · exact hne p hp
        · exact hne' p hp
  obtain ⟨front, rest, heq, hne⟩ := hqueue
  rw [Manager.flushed, Manager.update_customvariables]
  dsimp only
  rw [heq, List.foldl_append, List.foldl_cons, foldl_insert_of_ne hne]
  exact Function.update_self _ _ _

/-- A list has no event that inserts the variable, or a last one. -/
theorem last_inserts (c : Columns) (k : Key) (seg : List Event) :
    (∀ e ∈ seg, inserts c k e = false) ∨ ∃ before e after, seg = before ++ e :: after ∧
      inserts c k e = true ∧ ∀ e' ∈ after, inserts c k e' = false := by
  induction seg using List.reverseRecOn with
  | nil => exact .inl fun _ he => absurd he List.not_mem_nil
  | append_singleton seg e ih =>
    cases hins : inserts c k e with
    | true => exact .inr ⟨seg, e, [], rfl, hins, by simp⟩
    | false =>
      have hextend : ∀ {l : List Event}, (∀ e' ∈ l, inserts c k e' = false) →
          ∀ e' ∈ l ++ [e], inserts c k e' = false := by
        intro l hl e' he'
        rcases List.mem_append.mp he' with he' | he'
        · exact hl e' he'
        · rw [List.mem_singleton.mp he']
          exact hins
      rcases ih with hnone | ⟨before, e₀, after, rfl, he₀, hafter⟩
      · exact .inl (hextend hnone)
      · exact .inr ⟨before, e₀, after ++ [e], by simp, he₀, hextend hafter⟩

/-- An interval ends with the table that its events make one by one if and only if they leave the
insertions that wait as they are. -/
theorem flushed_eq_iff (T : Table) (seg : List Event) :
    (processed c T seg).flushed = seg.foldl (apply c) T ↔ Kept c seg := by
  have hlast : ∀ before cv after, cv.enabled = true →
      (∀ e ∈ after, inserts c (insertKey c cv) e = false) →
      ((before ++ .custom_variable cv :: after).foldl (apply c) T (insertKey c cv) =
          some (insertRow c cv) ↔
        (∀ e ∈ after, deletes (insertKey c cv) e = false) ∧
        ∀ s, (after.filterMap (status c (insertKey c cv))).getLast? = some s →
          Agrees c (insertRow c cv) s) := by
    intro before cv after henabled hnone
    rw [List.foldl_append, List.foldl_cons]
    exact foldl_apply_eq_iff (by simp [apply, henabled, insert]) (by simp [insertRow]) hnone
  constructor
  · intro heq before cv after hseg henabled hnone
    subst hseg
    rw [← hlast before cv after henabled hnone, ← heq]
    exact flushed_of_inserts henabled hnone
  · intro hkept
    funext k
    rcases last_inserts c k seg with hnone | ⟨before, e, after, rfl, hins, hnone⟩
    · obtain ⟨hqueue, htable⟩ := processed_of_not_inserts (T := T) hnone
      rw [← htable]
      exact foldl_insert_of_ne hqueue _
    · obtain ⟨cv, rfl, henabled, rfl, -⟩ := apply_inserts hins T
      rw [flushed_of_inserts henabled hnone]
      exact ((hlast before cv after henabled hnone).mpr
        (hkept before cv after rfl henabled hnone)).symm

/-! ## Runs -/

/-- At every query for the queue the table is what the events make of it one by one. -/
def Ordered (c : Columns) (T : Table) (acts : List Action) : Prop :=
  ∀ pre, pre ++ [.flush] <+: acts →
    (Manager.run c (pre ++ [.flush]) ⟨T, []⟩).customvariables = (events pre).foldl (apply c) T ∧
      (Manager.run c (pre ++ [.flush]) ⟨T, []⟩).cv_queue = []

theorem interval_event (acts : List Action) (e : Event) :
    interval (acts ++ [.event e]) = interval acts ++ [e] := by
  rw [interval, List.foldl_concat]
  rfl

theorem interval_flush (acts : List Action) : interval (acts ++ [.flush]) = [] := by
  rw [interval, List.foldl_concat]

theorem Ordered.of_append {acts : List Action} {a : Action}
    (h : Ordered c T (acts ++ [a])) : Ordered c T acts :=
  fun pre hpre => h pre (hpre.trans (List.prefix_append _ _))

/-- Since the last query for the queue the manager has processed the events of the interval. -/
theorem Ordered.run_eq {acts : List Action} (h : Ordered c T acts) :
    ∃ T₀, Manager.run c acts ⟨T, []⟩ = processed c T₀ (interval acts) ∧
      (events acts).foldl (apply c) T = (interval acts).foldl (apply c) T₀ := by
  induction acts using List.reverseRecOn with
  | nil => exact ⟨T, rfl, rfl⟩
  | append_singleton acts a ih =>
    cases a with
    | event e =>
      obtain ⟨T₀, hrun, hevents⟩ := ih h.of_append
      refine ⟨T₀, ?_, ?_⟩
      · rw [interval_event, processed, List.foldl_concat, Manager.run, List.foldl_concat]
        exact congrArg (fun m => Manager.process c m e) hrun
      · rw [interval_event, List.foldl_concat, events, List.filterMap_append]
        rw [List.foldl_append]
        exact congrArg (fun T => apply c T e) hevents
    | flush =>
      obtain ⟨htable, hqueue⟩ := h acts (List.prefix_refl _)
      refine ⟨(events acts).foldl (apply c) T, ?_, ?_⟩
      · rw [interval_flush]
        exact congrArg₂ Manager.mk htable hqueue
      · rw [interval_flush, events, List.filterMap_append]
        simp [events]

/-- The table is what the events make of it one by one, at every query for the queue, if and only
if at each no variable with an insertion in the queue was deleted or got another value since. -/
theorem ordered_iff (c : Columns) (T : Table) (acts : List Action) :
    Ordered c T acts ↔ ∀ pre, pre ++ [.flush] <+: acts → Kept c (interval pre) := by
  induction acts using List.reverseRecOn with
  | nil =>
    have hnil : ∀ pre : List Action, ¬ pre ++ [.flush] <+: [] := by
      intro pre h
      simpa using List.prefix_nil.mp h
    exact iff_of_true (fun pre h => absurd h (hnil pre)) fun pre h => absurd h (hnil pre)
  | append_singleton acts a ih =>
    constructor
    · intro h pre hpre
      rcases List.prefix_concat_iff.mp hpre with heq | hpre
      · obtain ⟨rfl, hflush⟩ := List.append_inj' heq rfl
        cases hflush
        obtain ⟨T₀, hrun, hevents⟩ := h.of_append.run_eq
        obtain ⟨htable, -⟩ := h pre (List.prefix_refl _)
        rw [Manager.run, List.foldl_concat, ← Manager.run, hrun, hevents] at htable
        exact (flushed_eq_iff T₀ (interval pre)).mp htable
      · exact ih.mp h.of_append pre hpre
    · intro h pre hpre
      have hbefore : Ordered c T acts :=
        ih.mpr fun pre hpre => h pre (hpre.trans (List.prefix_append _ _))
      rcases List.prefix_concat_iff.mp hpre with heq | hpre
      · obtain ⟨rfl, hflush⟩ := List.append_inj' heq rfl
        cases hflush
        obtain ⟨T₀, hrun, hevents⟩ := hbefore.run_eq
        have hkept := h pre (List.prefix_refl _)
        rw [Manager.run, List.foldl_concat, ← Manager.run, hrun, hevents]
        exact ⟨(flushed_eq_iff T₀ (interval pre)).mpr hkept, rfl⟩
      · exact hbefore pre hpre

/-- Texts that the columns keep as they are. -/
def plain : Columns := ⟨id, id, id, id, id⟩

/-- The macro `A` of a service, with the value `v`. -/
def macroA (enabled : Bool) : CustomVariable where
  host_id := 1
  modified := false
  name := "A"
  service_id := 2
  update_time := 10
  value := "v"
  default_value := "v"
  enabled := enabled
  var_type := 1

/-- A variable that is inserted, then deleted before the query for the queue is there again. -/
theorem not_ordered : ¬ ∀ c T acts, Ordered c T acts := by
  intro h
  obtain ⟨htable, -⟩ := h plain (fun _ => none) [.event (.custom_variable (macroA true)),
    .event (.custom_variable (macroA false)), .flush] [.event (.custom_variable (macroA true)),
    .event (.custom_variable (macroA false))] (List.prefix_refl _)
  have hrow := congrFun htable (1, 2, "A")
  revert hrow
  decide

end CentreonBroker.Storage.CustomVariables
