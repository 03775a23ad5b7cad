import CentreonBroker.Bam.ReportingReopen

/-!
# The content of a dump

The rows that a dump stores, and the time periods that it declares. What is done in memory for each
declaration, and what is loaded from the rows, lead to the same time periods; and deleting the
rows of five tables empties them all.
-/

namespace CentreonBroker.Bam

namespace Dimensions

def exceptionsOf (d : Dimensions) (id : ℕ) : List (List Char × List Char) :=
  (d.timeperiods_exceptions.filter fun tpe => tpe.timeperiod_id = id).map fun tpe =>
    (tpe.daterange, tpe.timerange)

def exclusionsOf (d : Dimensions) (id : ℕ) : List ℕ :=
  (d.timeperiods_exclusions.filter fun tpe => tpe.timeperiod_id = id).map fun tpe =>
    tpe.excluded_timeperiod_id

/-- A time period, with what is declared about it. -/
def period (d : Dimensions) (id : ℕ) : Option Period :=
  (d.timeperiods.find? fun tp => tp.timeperiod_id = id).bind fun tp =>
    (Period.make tp).map fun period =>
      { period with exceptions := d.exceptionsOf id, excluded := d.exclusionsOf id }

def timeperiodMap (d : Dimensions) : TimeperiodMap := ⟨d.period, d.relations_ba_timeperiods⟩

end Dimensions

/-- What a dimension event declares of the time periods, as it is. -/
def Dimension.declaration : Dimension → Option DimensionRow
  | .timeperiod tp => some (.timeperiod tp)
  | .timeperiod_exception tpe => some (.timeperiod_exception tpe)
  | .timeperiod_exclusion tpe => some (.timeperiod_exclusion tpe)
  | .ba_timeperiod_relation r => some (.relation_ba_timeperiod r)
  | _ => none

/-- The dimension tables that hold a dump, and nothing else. -/
def stored (ds : List Dimension) : Dimensions := (ds.map Dimension.row).foldl .add .new

/-- The tables accept each row of a dump behind those that come before it. -/
def Storable (ds : List Dimension) : Prop :=
  ∀ pre d post, ds = pre ++ d :: post → (stored pre).accepts d.row = true

/-- What a dump declares of the time periods. -/
def declared (ds : List Dimension) : Dimensions :=
  (ds.filterMap Dimension.declaration).foldl .add .new

namespace Dimension

/-- A time period is accepted if its ranges can be parsed. -/
def Accepted (d : Dimension) : Prop := ∀ tp, d = .timeperiod tp → (Period.make tp).isSome

/-- The texts of a declaration fit in their columns. -/
def Fits (d : Dimension) : Prop := ∀ row ∈ d.declaration, row = d.row

end Dimension

/-! ## Rows and time periods -/

namespace DimensionRow

/-- The keys that a row about the time periods refers to are there, and its own is not. -/
def Refers (d : Dimensions) : DimensionRow → Prop
  | .timeperiod row => ¬ d.hasTimeperiod row.timeperiod_id
  | .timeperiod_exception row => d.hasTimeperiod row.timeperiod_id
  | .timeperiod_exclusion row =>
    d.hasTimeperiod row.timeperiod_id ∧ d.hasTimeperiod row.excluded_timeperiod_id
  | .relation_ba_timeperiod row => d.hasTimeperiod row.timeperiod_id
  | _ => True

/-- What is done to the time periods for a row. -/
def apply (m : TimeperiodMap) : DimensionRow → Option TimeperiodMap
  | .timeperiod tp => m.apply_timeperiod tp
  | .timeperiod_exception tpe => some (m.apply_exception tpe)
  | .timeperiod_exclusion tpe => some (m.apply_exclusion tpe)
  | .relation_ba_timeperiod r => some (m.add_relation r)
  | _ => some m

end DimensionRow

namespace Dimensions

variable {d : Dimensions} {row : DimensionRow} {id : ℕ}

/-- The keys that the rows about the time periods refer to are there. -/
structure Keys (d : Dimensions) : Prop where
  timeperiod : (d.timeperiods.map (·.timeperiod_id)).Nodup
  exception : ∀ tpe ∈ d.timeperiods_exceptions, d.hasTimeperiod tpe.timeperiod_id
  exclusion : ∀ tpe ∈ d.timeperiods_exclusions,
    d.hasTimeperiod tpe.timeperiod_id ∧ d.hasTimeperiod tpe.excluded_timeperiod_id
  relation : ∀ r ∈ d.relations_ba_timeperiods, d.hasTimeperiod r.timeperiod_id

theorem keys_new : Keys new where
  timeperiod := List.nodup_nil
  exception _ h := by cases h
  exclusion _ h := by cases h
  relation _ h := by cases h

theorem refers_of_accepts (h : d.accepts row) : row.Refers d := by
  cases row with
  | timeperiod row =>
    intro hhas
    rw [accepts, hhas] at h
    cases h
  | timeperiod_exception row => exact h
  | timeperiod_exclusion row => exact Bool.and_eq_true_iff.mp h
  | relation_ba_timeperiod row => exact (Bool.and_eq_true_iff.mp h).2
  | _ => trivial

theorem hasTimeperiod_iff :
    d.hasTimeperiod id ↔ ∃ tp ∈ d.timeperiods, tp.timeperiod_id = id := by
  unfold hasTimeperiod
  rw [List.any_eq_true]
  simp only [decide_eq_true_iff]

theorem hasTimeperiod_add (h : d.hasTimeperiod id) : (d.add row).hasTimeperiod id := by
  obtain ⟨tp, htp, hid⟩ := hasTimeperiod_iff.mp h
  refine hasTimeperiod_iff.mpr ⟨tp, ?_, hid⟩
  cases row with
  | timeperiod row => exact List.mem_append_left _ htp
  | _ => exact htp

theorem Keys.add (h : d.Keys) (hrow : row.Refers d) : (d.add row).Keys where
  timeperiod := by
    cases row with
    | timeperiod row =>
      show ((d.timeperiods ++ [row]).map (·.timeperiod_id)).Nodup
      rw [List.map_append, List.nodup_append]
      refine ⟨h.timeperiod, List.nodup_singleton _, ?_⟩
      intro id hid id' hid' heq
      obtain ⟨tp, htp, rfl⟩ := List.mem_map.mp hid
      rw [List.mem_singleton.mp hid'] at heq
      exact hrow (hasTimeperiod_iff.mpr ⟨tp, htp, heq⟩)
    | _ => exact h.timeperiod
  exception tpe htpe := by
    cases row with
    | timeperiod_exception row =>
      rcases List.mem_append.mp htpe with hold | hnew
      · exact hasTimeperiod_add (h.exception tpe hold)
      · rw [List.mem_singleton.mp hnew]
        exact hasTimeperiod_add hrow
    | _ => exact hasTimeperiod_add (h.exception tpe htpe)
  exclusion tpe htpe := by
    cases row with
    | timeperiod_exclusion row =>
      rcases List.mem_append.mp htpe with hold | hnew
      · exact (h.exclusion tpe hold).imp hasTimeperiod_add hasTimeperiod_add
      · rw [List.mem_singleton.mp hnew]
        exact And.imp hasTimeperiod_add hasTimeperiod_add hrow
    | _ => exact (h.exclusion tpe htpe).imp hasTimeperiod_add hasTimeperiod_add
  relation r hr := by
    cases row with
    | relation_ba_timeperiod row =>
      rcases List.mem_append.mp hr with hold | hnew
      · exact hasTimeperiod_add (h.relation r hold)
      · rw [List.mem_singleton.mp hnew]
        exact hasTimeperiod_add hrow
    | _ => exact hasTimeperiod_add (h.relation r hr)

/-! ## The time periods, row after row -/

/-- Every time period is accepted. -/
def Parsed (d : Dimensions) : Prop := ∀ tp ∈ d.timeperiods, (Period.make tp).isSome

variable {tp : TimeperiodRow} {m : TimeperiodMap}

theorem period_isSome (hparsed : d.Parsed) (h : d.hasTimeperiod id) : (d.period id).isSome := by
  obtain ⟨tp, htp, hid⟩ := hasTimeperiod_iff.mp h
  have hfound : (d.timeperiods.find? fun tp => tp.timeperiod_id = id).isSome :=
    List.find?_isSome.mpr ⟨tp, htp, decide_eq_true hid⟩
  obtain ⟨tp', htp'⟩ := Option.isSome_iff_exists.mp hfound
  rw [period, htp', Option.bind_some, Option.isSome_map]
  exact hparsed tp' (List.mem_of_find?_eq_some htp')

theorem find?_eq_none (h : ¬ d.hasTimeperiod id) :
    (d.timeperiods.find? fun tp => tp.timeperiod_id = id) = none := by
  rw [List.find?_eq_none]
  intro tp htp hid
  exact h (hasTimeperiod_iff.mpr ⟨tp, htp, of_decide_eq_true hid⟩)

theorem period_eq_none (h : ¬ d.hasTimeperiod id) : d.period id = none := by
  rw [period, find?_eq_none h, Option.bind_none]

/-- Nothing is declared about a time period before it is. -/
theorem period_add_timeperiod (hkeys : d.Keys) (hnew : ¬ d.hasTimeperiod tp.timeperiod_id) :
    (d.add (.timeperiod tp)).period =
      Function.update d.period tp.timeperiod_id (Period.make tp) := by
  funext id
  have hfind : (d.add (.timeperiod tp)).period id =
      ((d.timeperiods ++ [tp]).find? fun tp => tp.timeperiod_id = id).bind fun tp =>
        (Period.make tp).map fun period =>
          { period with exceptions := d.exceptionsOf id, excluded := d.exclusionsOf id } := rfl
  rw [hfind, List.find?_append, List.find?_singleton]
  by_cases hid : id = tp.timeperiod_id
  · subst hid
    have hexceptions : d.exceptionsOf tp.timeperiod_id = [] := by
      unfold exceptionsOf
      rw [List.map_eq_nil_iff, List.filter_eq_nil_iff]
      intro tpe htpe hid
      exact hnew (of_decide_eq_true hid ▸ hkeys.exception tpe htpe)
    have hexclusions : d.exclusionsOf tp.timeperiod_id = [] := by
      unfold exclusionsOf
      rw [List.map_eq_nil_iff, List.filter_eq_nil_iff]
      intro tpe htpe hid
      exact hnew (of_decide_eq_true hid ▸ (hkeys.exclusion tpe htpe).1)
    rw [Function.update_self, find?_eq_none hnew, Option.none_or, if_pos (decide_eq_true rfl),
      Option.bind_some, hexceptions, hexclusions]
    unfold Period.make
    rw [Option.map_map]
    rfl
  · have hne : ¬ decide (tp.timeperiod_id = id) = true :=
      fun heq => hid (of_decide_eq_true heq).symm
    rw [Function.update_of_ne hid, if_neg hne, Option.or_none]
    rfl

theorem exceptionsOf_add (tpe : TimeperiodExceptionRow) :
    (d.add (.timeperiod_exception tpe)).exceptionsOf id =
      d.exceptionsOf id ++
        if tpe.timeperiod_id = id then [(tpe.daterange, tpe.timerange)] else [] := by
  show (List.filter _ (d.timeperiods_exceptions ++ [tpe])).map _ = _
  rw [List.filter_append, List.map_append]
  split <;> simp_all [exceptionsOf]

theorem exclusionsOf_add (tpe : TimeperiodExclusionRow) :
    (d.add (.timeperiod_exclusion tpe)).exclusionsOf id =
      d.exclusionsOf id ++ if tpe.timeperiod_id = id then [tpe.excluded_timeperiod_id] else [] := by
  show (List.filter _ (d.timeperiods_exclusions ++ [tpe])).map _ = _
  rw [List.filter_append, List.map_append]
  split <;> simp_all [exclusionsOf]

theorem period_add_exception (tpe : TimeperiodExceptionRow) :
    (d.add (.timeperiod_exception tpe)).period =
      Function.update d.period tpe.timeperiod_id ((d.period tpe.timeperiod_id).map fun tp =>
        { tp with exceptions := tp.exceptions ++ [(tpe.daterange, tpe.timerange)] }) := by
  funext id
  by_cases hid : id = tpe.timeperiod_id
  · subst hid
    rw [Function.update_self, period, exceptionsOf_add, if_pos rfl, period, Option.map_bind]
    congr 1
    funext tp
    rw [Function.comp_apply, Option.map_map]
    rfl
  · rw [Function.update_of_ne hid, period, exceptionsOf_add, if_neg (Ne.symm hid),
      List.append_nil]
    rfl

theorem period_add_exclusion (tpe : TimeperiodExclusionRow) :
    (d.add (.timeperiod_exclusion tpe)).period =
      Function.update d.period tpe.timeperiod_id ((d.period tpe.timeperiod_id).map fun tp =>
        { tp with excluded := tp.excluded ++ [tpe.excluded_timeperiod_id] }) := by
  funext id
  by_cases hid : id = tpe.timeperiod_id
  · subst hid
    rw [Function.update_self, period, exclusionsOf_add, if_pos rfl, period, Option.map_bind]
    congr 1
    funext tp
    rw [Function.comp_apply, Option.map_map]
    rfl
  · rw [Function.update_of_ne hid, period, exclusionsOf_add, if_neg (Ne.symm hid),
      List.append_nil]
    rfl

/-- What is done in memory for a row leads to the time periods that the rows declare. -/
theorem apply_add (hkeys : d.Keys) (hparsed : d.Parsed) (hrow : row.Refers d)
    (h : row.apply d.timeperiodMap = some m) :
    m = (d.add row).timeperiodMap ∧ (d.add row).Parsed := by
  cases row with
  | timeperiod tp =>
    obtain ⟨period, hmake, rfl⟩ := Option.map_eq_some_iff.mp h
    constructor
    · unfold timeperiodMap
      rw [period_add_timeperiod hkeys hrow, hmake]
      rfl
    · intro tp' htp'
      rcases List.mem_append.mp htp' with hold | hnew
      · exact hparsed tp' hold
      · rw [List.mem_singleton.mp hnew, hmake]
        rfl
  | timeperiod_exception tpe =>
    cases h
    refine ⟨?_, hparsed⟩
    obtain ⟨tp, htp⟩ := Option.isSome_iff_exists.mp (period_isSome hparsed hrow)
    have hget : d.timeperiodMap.get_timeperiod tpe.timeperiod_id = some tp := htp
    show _ = TimeperiodMap.mk (d.add _).period d.relations_ba_timeperiods
    rw [TimeperiodMap.apply_exception, hget, period_add_exception, htp]
    rfl
  | timeperiod_exclusion tpe =>
    cases h
    refine ⟨?_, hparsed⟩
    obtain ⟨tp, htp⟩ := Option.isSome_iff_exists.mp (period_isSome hparsed hrow.1)
    obtain ⟨excluded, hexcluded⟩ := Option.isSome_iff_exists.mp (period_isSome hparsed hrow.2)
    have hget : d.timeperiodMap.get_timeperiod tpe.timeperiod_id = some tp := htp
    have hget' : d.timeperiodMap.get_timeperiod tpe.excluded_timeperiod_id = some excluded :=
      hexcluded
    show _ = TimeperiodMap.mk (d.add _).period d.relations_ba_timeperiods
    rw [TimeperiodMap.apply_exclusion, hget, hget', period_add_exclusion, htp]
    rfl
  | _ =>
    cases h
    exact ⟨rfl, hparsed⟩

/-- A time period that is refused is not there. -/
theorem timeperiodMap_add_refused (hkeys : d.Keys) (hrow : row.Refers d)
    (h : row.apply d.timeperiodMap = none) : (d.add row).timeperiodMap = d.timeperiodMap := by
  cases row with
  | timeperiod tp =>
    have hmake : Period.make tp = none := Option.map_eq_none_iff.mp h
    unfold timeperiodMap
    rw [period_add_timeperiod hkeys hrow, hmake, ← period_eq_none hrow, Function.update_eq_self]
    rfl
  | _ => cases h

/-! ## The time periods that are loaded -/

/-- The rows about the time periods, in the order in which they are loaded. -/
def periodRows (d : Dimensions) : List DimensionRow :=
  d.timeperiods.map .timeperiod ++ (d.timeperiods_exceptions.map .timeperiod_exception ++
    (d.timeperiods_exclusions.map .timeperiod_exclusion ++
      d.relations_ba_timeperiods.map .relation_ba_timeperiod))

/-- Each row refers to what comes before it. -/
def RefersAll (d : Dimensions) : List DimensionRow → Prop
  | [] => True
  | row :: rows => row.Refers d ∧ (d.add row).RefersAll rows

variable {rows rows' : List DimensionRow}

theorem refersAll_append :
    d.RefersAll (rows ++ rows') ↔ d.RefersAll rows ∧ (rows.foldl add d).RefersAll rows' := by
  induction rows generalizing d with
  | nil => exact (and_iff_right trivial).symm
  | cons row rows ih =>
    rw [List.cons_append, RefersAll, RefersAll, ih, and_assoc]
    rfl

/-- Rows that are no time periods refer to those that are there. -/
theorem refersAll_map {α : Type} {f : α → DimensionRow} {l : List α}
    (hadd : ∀ (d : Dimensions) (a : α), (d.add (f a)).timeperiods = d.timeperiods)
    (hrefers : ∀ d' : Dimensions, d'.timeperiods = d.timeperiods → ∀ a ∈ l, (f a).Refers d') :
    d.RefersAll (l.map f) ∧ ((l.map f).foldl add d).timeperiods = d.timeperiods := by
  induction l generalizing d with
  | nil => exact ⟨trivial, rfl⟩
  | cons a l ih =>
    obtain ⟨hall, hsame⟩ := ih fun d' hd' a' ha' =>
      hrefers d' (hd'.trans (hadd d a)) a' (List.mem_cons_of_mem _ ha')
    exact ⟨⟨hrefers d rfl a List.mem_cons_self, hall⟩, hsame.trans (hadd d a)⟩

theorem refersAll_timeperiods {l : List TimeperiodRow}
    (hnew : ∀ tp ∈ l, ¬ d.hasTimeperiod tp.timeperiod_id)
    (hnodup : (l.map (·.timeperiod_id)).Nodup) : d.RefersAll (l.map .timeperiod) := by
  induction l generalizing d with
  | nil => trivial
  | cons tp l ih =>
    rw [List.map_cons, List.nodup_cons] at hnodup
    refine ⟨hnew tp List.mem_cons_self, ih ?_ hnodup.2⟩
    intro tp' htp' hhas
    obtain ⟨tp₀, htp₀, hid⟩ := hasTimeperiod_iff.mp hhas
    rcases List.mem_append.mp htp₀ with hold | hself
    · exact hnew tp' (List.mem_cons_of_mem _ htp') (hasTimeperiod_iff.mpr ⟨tp₀, hold, hid⟩)
    · rw [List.mem_singleton.mp hself] at hid
      exact hnodup.1 (hid ▸ List.mem_map_of_mem htp')

theorem foldl_timeperiods (l : List TimeperiodRow) :
    (l.map .timeperiod).foldl add d = { d with timeperiods := d.timeperiods ++ l } := by
  induction l generalizing d with
  | nil => rw [List.append_nil]; rfl
  | cons tp l ih =>
    rw [List.map_cons, List.foldl_cons, ih, add, List.append_assoc, List.singleton_append]

theorem foldl_exceptions (l : List TimeperiodExceptionRow) :
    (l.map .timeperiod_exception).foldl add d =
      { d with timeperiods_exceptions := d.timeperiods_exceptions ++ l } := by
  induction l generalizing d with
  | nil => rw [List.append_nil]; rfl
  | cons tpe l ih =>
    rw [List.map_cons, List.foldl_cons, ih, add, List.append_assoc, List.singleton_append]

theorem foldl_exclusions (l : List TimeperiodExclusionRow) :
    (l.map .timeperiod_exclusion).foldl add d =
      { d with timeperiods_exclusions := d.timeperiods_exclusions ++ l } := by
  induction l generalizing d with
  | nil => rw [List.append_nil]; rfl
  | cons tpe l ih =>
    rw [List.map_cons, List.foldl_cons, ih, add, List.append_assoc, List.singleton_append]

theorem foldl_relations (l : List BaTimeperiodRow) :
    (l.map .relation_ba_timeperiod).foldl add d =
      { d with relations_ba_timeperiods := d.relations_ba_timeperiods ++ l } := by
  induction l generalizing d with
  | nil => rw [List.append_nil]; rfl
  | cons r l ih =>
    rw [List.map_cons, List.foldl_cons, ih, add, List.append_assoc, List.singleton_append]

theorem timeperiodMap_periodRows (d : Dimensions) :
    (d.periodRows.foldl add new).timeperiodMap = d.timeperiodMap := by
  unfold periodRows
  rw [List.foldl_append, List.foldl_append, List.foldl_append, foldl_timeperiods,
    foldl_exceptions, foldl_exclusions, foldl_relations]
  rfl

theorem refersAll_periodRows (hkeys : d.Keys) : new.RefersAll d.periodRows := by
  unfold periodRows
  rw [refersAll_append, refersAll_append, refersAll_append]
  have htimeperiods : new.RefersAll (d.timeperiods.map .timeperiod) :=
    refersAll_timeperiods (fun tp _ hhas => by cases hhas) hkeys.timeperiod
  have hhas : ∀ d' : Dimensions, d'.timeperiods = d.timeperiods → ∀ id, d.hasTimeperiod id →
      d'.hasTimeperiod id := by
    intro d' hd' id hid
    rw [hasTimeperiod, hd']
    exact hid
  refine ⟨htimeperiods, ?_, ?_, ?_⟩
  · refine (refersAll_map (fun _ _ => rfl) fun d' hd' tpe htpe => ?_).1
    rw [foldl_timeperiods] at hd'
    exact hhas d' hd' _ (hkeys.exception tpe htpe)
  · refine (refersAll_map (fun _ _ => rfl) fun d' hd' tpe htpe => ?_).1
    rw [foldl_timeperiods, foldl_exceptions] at hd'
    exact (hkeys.exclusion tpe htpe).imp (hhas d' hd' _) (hhas d' hd' _)
  · refine (refersAll_map (fun _ _ => rfl) fun d' hd' r hr => ?_).1
    rw [foldl_timeperiods, foldl_exceptions, foldl_exclusions] at hd'
    exact hhas d' hd' _ (hkeys.relation r hr)

theorem foldlM_apply (hkeys : d.Keys) (hparsed : d.Parsed) (hrows : d.RefersAll rows)
    (h : rows.foldlM DimensionRow.apply d.timeperiodMap = some m) :
    m = (rows.foldl add d).timeperiodMap := by
  induction rows generalizing d with
  | nil => exact (Option.some.inj h).symm
  | cons row rows ih =>
    rw [List.foldlM_cons] at h
    obtain ⟨m₁, happly, h⟩ := Option.bind_eq_some_iff.mp h
    obtain ⟨rfl, hparsed'⟩ := apply_add hkeys hparsed hrows.1 happly
    exact ih (hkeys.add hrows.1) hparsed' hrows.2 h

theorem foldlM_some {α β : Type} (f : β → α → β) (l : List α) (b : β) :
    l.foldlM (fun b a => some (f b a)) b = some (l.foldl f b) := by
  induction l generalizing b with
  | nil => rfl
  | cons a l ih => exact ih (f b a)

theorem load_eq (d : Dimensions) :
    TimeperiodMap.load d = d.periodRows.foldlM DimensionRow.apply TimeperiodMap.new := by
  unfold periodRows TimeperiodMap.load
  rw [List.foldlM_append, List.foldlM_map]
  show Option.map _ (d.timeperiods.foldlM TimeperiodMap.apply_timeperiod TimeperiodMap.new) = _
  rw [Option.map_eq_bind]
  refine congrArg (Option.bind _) (funext fun m => ?_)
  rw [List.foldlM_append, List.foldlM_map]
  show _ = (List.foldlM (fun m tpe => some (TimeperiodMap.apply_exception m tpe)) m _).bind _
  rw [foldlM_some, Option.bind_some, List.foldlM_append, List.foldlM_map]
  show _ = (List.foldlM (fun m tpe => some (TimeperiodMap.apply_exclusion m tpe)) _ _).bind _
  rw [foldlM_some, Option.bind_some, List.foldlM_map]
  exact (foldlM_some TimeperiodMap.add_relation _ _).symm

/-- What is loaded is what the rows declare. -/
theorem load_spec (hkeys : d.Keys) (h : TimeperiodMap.load d = some m) : m = d.timeperiodMap := by
  rw [load_eq] at h
  rw [← timeperiodMap_periodRows d]
  exact foldlM_apply keys_new (fun tp htp => by cases htp) (refersAll_periodRows hkeys) h

/-! ## Truncation -/

/-- Every row about the time periods goes with its time period. -/
theorem truncate_all (hkeys : d.Keys) :
    ReportingStream.dimension_truncate_tables.foldl truncate d = new := by
  have hhas : ∀ id, d.hasTimeperiod id → (!d.hasTimeperiod id) = false :=
    fun id hid => by rw [hid]; rfl
  have hexceptions : (d.timeperiods_exceptions.filter fun row =>
      !d.hasTimeperiod row.timeperiod_id) = [] :=
    List.filter_eq_nil_iff.mpr fun row hrow =>
      ne_true_of_eq_false (hhas _ (hkeys.exception row hrow))
  have hexclusions : (d.timeperiods_exclusions.filter fun row =>
      !d.hasTimeperiod row.timeperiod_id && !d.hasTimeperiod row.excluded_timeperiod_id) = [] :=
    List.filter_eq_nil_iff.mpr fun row hrow => by
      rw [hhas _ (hkeys.exclusion row hrow).1, Bool.false_and]
      exact Bool.false_ne_true
  have hrelations : ∀ l : List BaTimeperiodRow, (∀ row ∈ l, row ∈ d.relations_ba_timeperiods) →
      (l.filter fun row => !d.hasTimeperiod row.timeperiod_id) = [] :=
    fun l hl => List.filter_eq_nil_iff.mpr fun row hrow =>
      ne_true_of_eq_false (hhas _ (hkeys.relation row (hl row hrow)))
  show Dimensions.mk [] [] [] [] [] (d.timeperiods_exceptions.filter _)
    (d.timeperiods_exclusions.filter _) ((d.relations_ba_timeperiods.filter _).filter _) = new
  unfold new
  congr 1
  exact hrelations _ fun row hrow => (List.mem_filter.mp hrow).1

end Dimensions

/-! ## Rows of a dump -/

section

variable {ds : List Dimension} {d : Dimension}

theorem stored_concat : stored (ds ++ [d]) = (stored ds).add d.row := by
  rw [stored, List.map_append, List.foldl_append]
  rfl

theorem declared_concat :
    declared (ds ++ [d]) = d.declaration.toList.foldl Dimensions.add (declared ds) := by
  rw [declared, List.filterMap_append, List.foldl_append]
  cases hd : d.declaration with
  | none => rw [List.filterMap_cons_none hd]; rfl
  | some row => rw [List.filterMap_cons_some hd]; rfl

/-- The texts apart, what is declared of the time periods is stored. -/
theorem hasTimeperiod_stored (ds : List Dimension) :
    (stored ds).hasTimeperiod = (declared ds).hasTimeperiod := by
  induction ds using List.reverseRecOn with
  | nil => rfl
  | append_singleton ds d ih =>
    rw [stored_concat, declared_concat]
    cases d with
    | timeperiod tp =>
      funext id
      show List.any (_ ++ [_]) _ = List.any (_ ++ [_]) _
      rw [List.any_append, List.any_append]
      exact congrArg₂ or (congrFun ih id) rfl
    | _ => exact ih

theorem refers_declaration {row : DimensionRow} (h : d.row.Refers (stored ds))
    (hrow : d.declaration = some row) : row.Refers (declared ds) := by
  cases d with
  | ba_event _ | bv_event _ | ba_bv_relation_event _ | kpi_event _ => cases hrow
  | _ =>
    cases hrow
    unfold DimensionRow.Refers at h ⊢
    rw [hasTimeperiod_stored] at h
    exact h

/-- What `_dimension_dispatch` does to the time periods, on rows. -/
theorem applyDimension_eq (m : TimeperiodMap) (d : Dimension) :
    ReportingStream.applyDimension m d = d.declaration.elim (some m) (DimensionRow.apply m) := by
  cases d <;> rfl

/-- Where the texts fit, what is stored of the time periods is what is declared. -/
theorem timeperiodMap_stored (hfits : ∀ d ∈ ds, d.Fits) :
    (stored ds).timeperiodMap = (declared ds).timeperiodMap := by
  have hsame : (stored ds).timeperiods = (declared ds).timeperiods ∧
      (stored ds).timeperiods_exceptions = (declared ds).timeperiods_exceptions ∧
      (stored ds).timeperiods_exclusions = (declared ds).timeperiods_exclusions ∧
      (stored ds).relations_ba_timeperiods = (declared ds).relations_ba_timeperiods := by
    induction ds using List.reverseRecOn with
    | nil => exact ⟨rfl, rfl, rfl, rfl⟩
    | append_singleton ds d ih =>
      obtain ⟨htp, hexception, hexclusion, hrelation⟩ :=
        ih fun d hd => hfits d (List.mem_append_left _ hd)
      have hfit := hfits d (List.mem_append_right _ List.mem_cons_self)
      rw [stored_concat, declared_concat]
      cases d with
      | timeperiod tp =>
        rw [← hfit _ rfl]
        exact ⟨congrArg (· ++ [tp]) htp, hexception, hexclusion, hrelation⟩
      | timeperiod_exception tpe =>
        rw [← hfit _ rfl]
        exact ⟨htp, congrArg (· ++ [tpe]) hexception, hexclusion, hrelation⟩
      | timeperiod_exclusion tpe =>
        exact ⟨htp, hexception, congrArg (· ++ [tpe]) hexclusion, hrelation⟩
      | ba_timeperiod_relation r =>
        exact ⟨htp, hexception, hexclusion, congrArg (· ++ [r]) hrelation⟩
      | _ => exact ⟨htp, hexception, hexclusion, hrelation⟩
  obtain ⟨htp, hexception, hexclusion, hrelation⟩ := hsame
  unfold Dimensions.timeperiodMap Dimensions.period Dimensions.exceptionsOf
    Dimensions.exclusionsOf
  rw [htp, hexception, hexclusion, hrelation]

end

end CentreonBroker.Bam
