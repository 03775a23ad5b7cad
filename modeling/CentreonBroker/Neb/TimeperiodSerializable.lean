import CentreonBroker.Lib.Joined
import CentreonBroker.Time.OtherDate
import CentreonBroker.Time.RangeText

/-!
# Time periods as texts

Each field of a time period has a getter that makes a text of it and a setter that reads the text.
The getter of the exceptions makes an empty text, which the parser takes for a date: it is put in a
vector that has no elements.
-/

namespace CentreonBroker.Neb

open Time

/-- `time::timeperiod`. Other time periods are pointers. -/
structure TimeperiodData where
  name : List Char
  tp_alias : List Char
  weekly : Timeperiod
  /-- `_exceptions`, by the type of the dates. -/
  exceptions : List (List Date)
  excluded : List ℕ
  included : List ℕ

/-- How a setter fails. -/
inductive Failure where
  | threw (what : List Char)
  /-- `at` did not find the key. -/
  | outOfRange
  | outOfBounds
  deriving DecidableEq

/-- The time periods that are there: those of the map, with its pointers, which may be null, and
the names of all. -/
structure Periods where
  tps : List Char → Option (Option ℕ)
  nameOf : ℕ → List Char

namespace TimeperiodData

/-- The constructor of `timeperiod`. -/
def new : TimeperiodData := ⟨[], [], ⟨fun _ => []⟩, List.replicate 5 [], [], []⟩

/-- `get_sunday` and so on. -/
def get_day (day : ℕ) (tp : TimeperiodData) : List Char :=
  Timerange.build_string_from_timeranges (tp.weekly.get_timeranges_by_day day)

def get_exceptions (_ : TimeperiodData) : List Char := []

/-- `get_excluded` and `get_included`. -/
def get_names (ps : Periods) (list : List ℕ) : List Char :=
  list.foldl (fun ret p => (if ret ≠ [] then ret ++ [','] else ret) ++ ps.nameOf p) []

/-- `set_sunday` and so on. -/
def set_day (day : ℕ) (dayName : String) (val : List Char) (tp : TimeperiodData) :
    Except Failure TimeperiodData :=
  match tp.weekly.set_timerange val day with
  | (false, _) =>
    .error (.threw ("couldn't set ".toList ++ dayName.toList ++ " for ".toList ++ tp.name))
  | (true, weekly) => .ok { tp with weekly := weekly }

/-- `set_exceptions`. It throws when the text is accepted. -/
def set_exceptions (val : List Char) (tp : TimeperiodData) : Except Failure TimeperiodData :=
  match Date.build_dateranges_from_string val [] with
  | none => .error .outOfBounds
  | some (true, _) =>
    .error (.threw ("couldn't parse exceptions timeranges '".toList ++ val ++ "'".toList))
  | some (false, dateranges) => .ok { tp with exceptions := tp.exceptions ++ dateranges }

/-- The loop of `set_excluded` and of `set_included` over the names. -/
def find_names (ps : Periods) (what : String) : List (List Char) → Except Failure (List ℕ)
  | [] => .ok []
  | name :: names =>
    match ps.tps name with
    | none => .error .outOfRange
    | some none =>
      .error (.threw ("couldn't find the ".toList ++ what.toList ++ " timeperiod '".toList ++
        name ++ "'".toList))
    | some (some p) => (find_names ps what names).map (p :: ·)

def set_excluded (ps : Periods) (val : List Char) (tp : TimeperiodData) :
    Except Failure TimeperiodData :=
  (find_names ps "excluded" (val.splitOn ',')).map fun l =>
    { tp with excluded := tp.excluded ++ l }

def set_included (ps : Periods) (val : List Char) (tp : TimeperiodData) :
    Except Failure TimeperiodData :=
  (find_names ps "included" (val.splitOn ',')).map fun l =>
    { tp with included := tp.included ++ l }

/-- What the visitor is given for a field. -/
structure Field where
  key : String
  get : Periods → TimeperiodData → List Char
  set : Periods → List Char → TimeperiodData → Except Failure TimeperiodData

/-- The field of a day of the week. -/
def dayField (day : ℕ) (dayName : String) : Field :=
  ⟨dayName, fun _ => get_day day, fun _ => set_day day dayName⟩

def exceptionsField : Field := ⟨"exceptions", fun _ => get_exceptions, fun _ => set_exceptions⟩

def nameFields : List Field :=
  [⟨"timeperiod_name", fun _ tp => tp.name, fun _ val tp => .ok { tp with name := val }⟩,
    ⟨"alias", fun _ tp => tp.tp_alias, fun _ val tp => .ok { tp with tp_alias := val }⟩]

def days : List (ℕ × String) :=
  [(0, "sunday"), (1, "monday"), (2, "tuesday"), (3, "wednesday"), (4, "thursday"), (5, "friday"),
    (6, "saturday")]

def dayFields : List Field := days.map fun d => dayField d.1 d.2

def listFields : List Field :=
  [⟨"exclude", fun ps tp => get_names ps tp.excluded, set_excluded⟩,
    ⟨"include", fun ps tp => get_names ps tp.included, set_included⟩]

/-- The calls of `visit`. -/
def visit : List Field := nameFields ++ dayFields ++ exceptionsField :: listFields

/-- The setters of some fields, each with the text that its getter makes. -/
def readFields (ps : Periods) (tp : TimeperiodData) (fields : List Field) (t : TimeperiodData) :
    Except Failure TimeperiodData :=
  fields.foldlM (fun t f => f.set ps (f.get ps tp) t) t

/-- A time period is written through the getters and read by the setters. -/
def readBack (ps : Periods) (fields : List Field) (tp : TimeperiodData) :
    Except Failure TimeperiodData :=
  readFields ps tp fields new

/-- The same ranges in each day, in some order, and what else there is. -/
structure Same (tp tp' : TimeperiodData) : Prop where
  weekly : ∀ day < 7, (tp'.weekly.timeranges day).Perm (tp.weekly.timeranges day)
  exceptions : tp'.exceptions = tp.exceptions
  excluded : tp'.excluded = tp.excluded
  included : tp'.included = tp.included

/-- No setter fails for the text of its getter, and what is read is what was written. -/
def RoundTrips (ps : Periods) (tp : TimeperiodData) : Prop :=
  ∃ tp', readBack ps visit tp = .ok tp' ∧ tp.Same tp'

/-! ## The exceptions -/

/-- The empty text makes a date, for which the vector has no list. -/
theorem set_exceptions_get (tp t : TimeperiodData) :
    set_exceptions tp.get_exceptions t = .error .outOfBounds := by
  have hnone : Date.build_dateranges_from_string [] [] = none := by decide +kernel
  rw [get_exceptions, set_exceptions, hnone]

theorem readFields_append (ps : Periods) (tp : TimeperiodData) (fields fields' : List Field)
    (t : TimeperiodData) :
    readFields ps tp (fields ++ fields') t =
      (readFields ps tp fields t).bind (readFields ps tp fields') := List.foldlM_append

theorem readFields_cons (ps : Periods) (tp : TimeperiodData) (f : Field) (fields : List Field)
    (t : TimeperiodData) :
    readFields ps tp (f :: fields) t =
      (f.set ps (f.get ps tp) t).bind (readFields ps tp fields) := List.foldlM_cons

/-- The field of the exceptions is read by none. -/
theorem readBack_visit (ps : Periods) (tp : TimeperiodData) :
    ∃ e, readBack ps visit tp = .error e := by
  rw [readBack, visit, readFields_append]
  cases readFields ps tp (nameFields ++ dayFields) new with
  | error e => exact ⟨e, rfl⟩
  | ok t =>
    refine ⟨.outOfBounds, ?_⟩
    change readFields ps tp (exceptionsField :: listFields) t = _
    rw [readFields_cons]
    change (set_exceptions tp.get_exceptions t).bind _ = _
    rw [set_exceptions_get]
    rfl

/-- **No time period is read back.** -/
theorem not_roundTrips (ps : Periods) (tp : TimeperiodData) : ¬ RoundTrips ps tp := by
  rintro ⟨tp', hread, -⟩
  obtain ⟨e, herror⟩ := readBack_visit ps tp
  rw [herror] at hread
  cases hread

/-- A time period of all hours, without exceptions or lists. -/
theorem all_hours_not_read :
    ¬ RoundTrips ⟨fun _ => none, fun _ => []⟩
      ⟨"24x7".toList, "always".toList, ⟨fun _ => [⟨0, 86400⟩]⟩, List.replicate 5 [], [], []⟩ := by
  rintro ⟨tp', hread, -⟩
  obtain ⟨e, herror⟩ := readBack_visit ⟨fun _ => none, fun _ => []⟩
    ⟨"24x7".toList, "always".toList, ⟨fun _ => [⟨0, 86400⟩]⟩, List.replicate 5 [], [], []⟩
  rw [herror] at hread
  cases hread

/-! ## The other fields -/

/-- The ranges of a day are put in front of those that are there, in the other order. -/
theorem set_day_get {day : ℕ} {tp : TimeperiodData}
    (h : ∀ r ∈ tp.weekly.timeranges day, Timerange.Minutes r) (dayName : String)
    (t : TimeperiodData) :
    set_day day dayName (tp.get_day day) t =
      .ok { t with
        weekly := ⟨Function.update t.weekly.timeranges day
          ((tp.weekly.timeranges day).reverse ++ t.weekly.timeranges day)⟩ } := by
  rw [set_day, Timeperiod.set_timerange, get_day, Timeperiod.get_timeranges_by_day,
    Timerange.build_print h]

/-- The days are read one after the other. -/
theorem readFields_days {ps : Periods} {tp : TimeperiodData} {ds : List (ℕ × String)}
    (hnodup : (ds.map Prod.fst).Nodup)
    (h : ∀ d ∈ ds, ∀ r ∈ tp.weekly.timeranges d.1, Timerange.Minutes r) (t : TimeperiodData) :
    ∃ weekly : ℕ → List Timerange,
      readFields ps tp (ds.map fun d => dayField d.1 d.2) t = .ok { t with weekly := ⟨weekly⟩ } ∧
      ∀ day, weekly day =
        if day ∈ ds.map Prod.fst then
          (tp.weekly.timeranges day).reverse ++ t.weekly.timeranges day
        else t.weekly.timeranges day := by
  induction ds generalizing t with
  | nil => exact ⟨t.weekly.timeranges, rfl, fun day => (if_neg List.not_mem_nil).symm⟩
  | cons d ds ih =>
    rw [List.map_cons, List.nodup_cons] at hnodup
    have hd := set_day_get (h d List.mem_cons_self) d.2 t
    obtain ⟨weekly, hread, hweekly⟩ := ih hnodup.2 (fun d' hd' => h d' (List.mem_cons_of_mem _ hd'))
      { t with weekly := ⟨Function.update t.weekly.timeranges d.1
        ((tp.weekly.timeranges d.1).reverse ++ t.weekly.timeranges d.1)⟩ }
    refine ⟨weekly, ?_, ?_⟩
    · rw [List.map_cons, readFields_cons]
      change (set_day d.1 d.2 (tp.get_day d.1) t).bind _ = _
      rw [hd]
      exact hread
    · intro day
      rw [hweekly day, List.map_cons]
      dsimp only
      by_cases hday : day = d.1
      · subst hday
        rw [if_neg hnodup.1, if_pos List.mem_cons_self, Function.update_self]
      · rw [Function.update_of_ne hday]
        by_cases hmem : day ∈ ds.map Prod.fst
        · rw [if_pos hmem, if_pos (List.mem_cons_of_mem _ hmem)]
        · rw [if_neg hmem, if_neg (by simp only [List.mem_cons, hday, hmem, or_self,
            not_false_eq_true])]

/-- The time periods of a list are in the map, under names that can be listed. -/
def Listed (ps : Periods) (l : List ℕ) : Prop :=
  ∀ p ∈ l, ps.tps (ps.nameOf p) = some (some p) ∧ ps.nameOf p ≠ [] ∧ ',' ∉ ps.nameOf p

theorem find_names_map {ps : Periods} {l : List ℕ} (h : Listed ps l) (what : String) :
    find_names ps what (l.map ps.nameOf) = .ok l := by
  induction l with
  | nil => rfl
  | cons p l ih =>
    have hl : Listed ps l := fun q hq => h q (List.mem_cons_of_mem _ hq)
    rw [List.map_cons, find_names, (h p List.mem_cons_self).1, ih hl]
    rfl

/-- A list that is not empty is read back. -/
theorem find_names_get {ps : Periods} {l : List ℕ} (h : Listed ps l) (hne : l ≠ [])
    (what : String) : find_names ps what ((get_names ps l).splitOn ',') = .ok l := by
  have hsplit : (get_names ps l).splitOn ',' = l.map ps.nameOf :=
    Joined.splitOn_join (fun p hp => (h p hp).2.1) (fun p hp => (h p hp).2.2) hne
  rw [hsplit, find_names_map h]

/-- **All fields but the exceptions are read back**, when no list is empty: an empty one would be taken
for the list of an empty name. -/
theorem readBack_others {ps : Periods} {tp : TimeperiodData}
    (hdays : ∀ day < 7, ∀ r ∈ tp.weekly.timeranges day, Timerange.Minutes r)
    (hexcluded : Listed ps tp.excluded) (hincluded : Listed ps tp.included)
    (hne : tp.excluded ≠ []) (hne' : tp.included ≠ []) :
    ∃ tp', readBack ps (nameFields ++ dayFields ++ listFields) tp = .ok tp' ∧
      tp.Same { tp' with exceptions := tp.exceptions } ∧ tp'.name = tp.name ∧
      tp'.tp_alias = tp.tp_alias := by
  have hlt : ∀ d ∈ days, d.1 < 7 := by decide
  obtain ⟨weekly, hread, hweekly⟩ := @readFields_days ps tp days (by decide)
    (fun d hd => hdays d.1 (hlt d hd)) { new with name := tp.name, tp_alias := tp.tp_alias }
  refine ⟨⟨tp.name, tp.tp_alias, ⟨weekly⟩, new.exceptions, tp.excluded, tp.included⟩, ?_, ?_⟩
  · have hfind := find_names_get hexcluded hne "excluded"
    have hfind' := find_names_get hincluded hne' "included"
    rw [readBack, readFields_append, readFields_append]
    change ((readFields ps tp dayFields { new with name := tp.name, tp_alias := tp.tp_alias }).bind
      (readFields ps tp listFields)) = _
    rw [dayFields, hread]
    change ((set_excluded ps (get_names ps tp.excluded) _).bind fun t =>
      readFields ps tp listFields.tail t) = _
    rw [set_excluded, hfind]
    change ((set_included ps (get_names ps tp.included) _).bind (readFields ps tp [])) = _
    rw [set_included, hfind']
    rfl
  · refine ⟨⟨?_, rfl, rfl, rfl⟩, rfl, rfl⟩
    intro day hday
    change (weekly day).Perm _
    have hmem : day ∈ days.map Prod.fst := by
      revert day
      decide
    rw [hweekly, if_pos hmem]
    change ((tp.weekly.timeranges day).reverse ++ []).Perm _
    rw [List.append_nil]
    exact (tp.weekly.timeranges day).reverse_perm

/-- Two periods, under names. -/
def twoPeriods : Periods :=
  ⟨fun n => if n = ['w'] then some (some 1) else if n = ['n', 't'] then some (some 2) else none,
    fun p => if p = 1 then ['w'] else ['n', 't']⟩

/-- Mornings and afternoons, without both periods and with one of them. -/
def workHours : TimeperiodData :=
  ⟨['w', 'o', 'r', 'k'], ['a', 'l', 'l'],
    ⟨fun day => if day = 6 then [⟨0, 86400⟩] else [⟨28800, 43200⟩, ⟨50400, 64800⟩]⟩,
    List.replicate 5 [], [1, 2], [2]⟩

theorem readBack_others_all_hours :
    ∃ tp', readBack twoPeriods (nameFields ++ dayFields ++ listFields) workHours = .ok tp' ∧
      workHours.Same { tp' with exceptions := workHours.exceptions } ∧
      tp'.name = workHours.name ∧ tp'.tp_alias = workHours.tp_alias := by
  have hdays : ∀ day < 7, ∀ r ∈ workHours.weekly.timeranges day, Timerange.Minutes r := by
    intro day _ r hr
    have hall : r ∈ [⟨0, 86400⟩, ⟨28800, 43200⟩, ⟨50400, 64800⟩] := by
      simp only [workHours] at hr
      split at hr <;> simp only [List.mem_cons, List.not_mem_nil, or_false] at hr ⊢ <;> tauto
    simp only [List.mem_cons, List.not_mem_nil, or_false] at hall
    rcases hall with rfl | rfl | rfl <;> exact ⟨by decide, by decide, by decide, by decide⟩
  exact readBack_others hdays (by unfold Listed; decide) (by unfold Listed; decide) (by decide)
    (by decide)

end TimeperiodData

end CentreonBroker.Neb
