import CentreonBroker.Storage.Rebuilder

/-!
# The events of a rebuild

What a rebuild publishes when nothing comes in between, and what it leaves behind when something
does.
-/

namespace CentreonBroker.Storage.Rebuilder

open Database (Floating)

/-! ## Streams of events -/

def Event.isValue : Event → Bool
  | .rebuild _ _ _ => false
  | _ => true

/-- Each start has its end, and the values stand between the two. -/
inductive Balanced : List Event → Prop
  | nil : Balanced []
  | block (id : ℕ) (isIndex : Bool) {values rest : List Event} (hvalues : ∀ e ∈ values, e.isValue)
      (hrest : Balanced rest) :
      Balanced (.rebuild false id isIndex :: (values ++ .rebuild true id isIndex :: rest))

theorem Balanced.append {as bs : List Event} (ha : Balanced as) (hb : Balanced bs) :
    Balanced (as ++ bs) := by
  induction ha with
  | nil => exact hb
  | block id isIndex hvalues _ ih =>
    rw [List.cons_append, List.append_assoc, List.cons_append]
    exact .block id isIndex hvalues ih

/-- The values of a metric. -/
def valuesOf (metric : ℕ) (es : List Event) : List Metric :=
  es.filterMap fun
    | .metric v => if v.metricId = metric then some v else none
    | _ => none

def statusesOf (es : List Event) : List Status :=
  es.filterMap fun
    | .status s => some s
    | _ => none

section

variable (cfg : Config) (t : Tables) (env : Env) (id : ℕ) (row : IndexRow)

/-! ## What is asked -/

/-- The check interval, or five minutes where there is none. -/
def askedInterval : ℤ :=
  if foundInterval cfg t row = 0 then 5 * 60 else foundInterval cfg t row

/-- The values of a metric within the retention of the index, in strictly increasing time. -/
structure MetricValues (m : MetricRow) (vs : List Metric) : Prop where
  increasing : (vs.map Metric.ctime).Pairwise (· < ·)
  rows : ∀ (c : ℤ) (v : Floating), (∃ e ∈ vs, (e.ctime : ℤ) = c ∧ e.value = v) ↔
    ∃ d ∈ metricRows cfg t env row m, d.ctime = c ∧ published cfg d = v
  carried : ∀ e ∈ vs, (e.interval : ℤ) = askedInterval cfg t row ∧
    e.rrdLen = (rrdLength cfg row).toNat

/-- Each time of the status once, in strictly increasing time. -/
structure StatusValues (ss : List Status) : Prop where
  increasing : (ss.map Status.ctime).Pairwise (· < ·)
  times : ∀ c : ℤ, (∃ e ∈ ss, (e.ctime : ℤ) = c) ↔ ∃ d ∈ statusRows cfg t env id row, d.ctime = c
  carried : ∀ e ∈ ss, (e.interval : ℤ) = askedInterval cfg t row ∧
    e.rrdLen = (rrdLength cfg row).toNat

/-- The whole rebuild of an index. -/
structure Complete (es : List Event) : Prop where
  shape : es = ((t.metricsOf id).flatMap fun m =>
      .rebuild false m.metricId false :: (valuesOf m.metricId es).map .metric ++
        [.rebuild true m.metricId false]) ++
    (.rebuild false id true :: (statusesOf es).map .status ++ [.rebuild true id true])
  metrics : ∀ m ∈ t.metricsOf id, MetricValues cfg t env row m (valuesOf m.metricId es)
  status : StatusValues cfg t env id row (statusesOf es)

/-- All rows are fetched, and nothing else is seen. -/
def Select.Clear (s : Select) (rows : ℕ) : Prop :=
  s.query = .ok ∧ ∀ k ≤ rows, s.fetch k = .ok ∧ s.exit k = false

/-- No call fails, and no exit is seen. -/
structure Quiet : Prop where
  interval : env.interval = .ok
  mark : env.mark = .ok
  fetched : env.metrics.Clear (t.metricsOf id).length
  metrics : ∀ m ∈ t.metricsOf id, env.browse m.metricId = false ∧
    (env.metric m.metricId).Clear (metricRows cfg t env row m).length
  status : env.status.Clear (statusRows cfg t env id row).length
  exitLast : env.exitLast = false
  last : env.last = .ok

/-- What is asked of the rebuild of an index: all of the stream, or a stream in order and the
flag. -/
def Right : Prop :=
  (Quiet cfg t env id row → Complete cfg t env id row (rebuild cfg t env id row).1) ∧
  (¬ Quiet cfg t env id row → Balanced (rebuild cfg t env id row).1 ∧
    (rebuild cfg t env id row).2.flagOf id = some 1)

/-! ## When it is so -/

/-- No time comes twice, and each has room in 32 bits. -/
def Spread (rows : List DataRow) : Prop :=
  (rows.map DataRow.ctime).Nodup ∧ ∀ d ∈ rows, 0 ≤ d.ctime ∧ d.ctime < 2 ^ 32

/-- The check interval has room in 32 bits. -/
def IntervalFits : Prop := 0 ≤ foundInterval cfg t row ∧ foundInterval cfg t row < 2 ^ 32

/-- What the tables are to hold. -/
structure TablesFit : Prop where
  metrics : ∀ m ∈ t.metricsOf id, Spread (metricRows cfg t env row m) ∧
    (metricRows cfg t env row m ≠ [] →
      IntervalFits cfg t row ∧ (rrdLength cfg row).toNat < 2 ^ 31)
  status : Spread (statusRows cfg t env id row)
  length : statusRows cfg t env id row ≠ [] →
    IntervalFits cfg t row ∧ cfg.rrdLen = rrdLength cfg row

/-- How the calls of the loop over the metrics end. -/
def metricsEnding (exiting : Bool) : List MetricRow → Ending
  | [] => if exiting then .exit else .finished
  | m :: ms =>
    if exiting ∨ env.browse m.metricId then .exit
    else
      ((env.metric m.metricId).read exiting (byTime (metricRows cfg t env row m))).2.andThen
        fun exiting => metricsEnding exiting ms

/-- How the calls between the first `UPDATE` and the last one end. -/
def callsEnding : Ending :=
  let read := env.metrics.read false (t.metricsOf id)
  read.2.andThen fun exiting =>
    (metricsEnding cfg t env row exiting read.1).andThen fun exiting =>
      (env.status.read exiting (byTime (statusRows cfg t env id row))).2

/-- Once the index is flagged as being rebuilt, the connection is not lost, and the `UPDATE` that
follows is made. Where it could not be flagged, the flag is not cleared either. -/
def FlagFits : Prop :=
  env.interval = .ok → env.mark ≠ .gone →
    if env.mark = .ok then
      match callsEnding cfg t env id row with
      | .thrown gone => gone = false ∧ env.unmark = .ok
      | _ => env.last = .ok
    else env.last = .ok → callsEnding cfg t env id row ≠ .finished ∨ env.exitLast = true

end

/-! ## The loops that fetch -/

theorem loop_finished {α : Type} (s : Select) (exiting : Bool) (k : ℕ) (rows : List α) :
    (s.loop exiting k rows).2 = .finished ↔ exiting = false ∧
      ∀ j, k ≤ j → j ≤ k + rows.length → s.fetch j = .ok ∧ s.exit j = false := by
  induction rows generalizing k with
  | nil =>
    rw [Select.loop]
    split
    · rename_i hexit
      refine iff_of_false nofun ?_
      rintro ⟨hexiting, hall⟩
      have hk := hall k (Nat.le_refl _) (Nat.le_refl _)
      simp [hexiting, hk] at hexit
    split
    · rename_i hfetch
      exact iff_of_false nofun fun h => hfetch (h.2 k (Nat.le_refl _) (Nat.le_refl _)).1
    · rename_i hexit hfetch
      simp only [not_or, Bool.not_eq_true] at hexit
      refine iff_of_true rfl ⟨hexit.1, ?_⟩
      intro j hle hge
      have hj : j = k := Nat.le_antisymm hge hle
      rw [hj]
      exact ⟨Decidable.not_not.mp hfetch, hexit.2⟩
  | cons row rows ih =>
    rw [Select.loop]
    split
    · rename_i hexit
      refine iff_of_false nofun ?_
      rintro ⟨hexiting, hall⟩
      have hk := hall k (Nat.le_refl _) (Nat.le_add_right _ _)
      simp [hexiting, hk] at hexit
    split
    · rename_i hfetch
      exact iff_of_false nofun fun h => hfetch (h.2 k (Nat.le_refl _) (Nat.le_add_right _ _)).1
    · rename_i hexit hfetch
      simp only [not_or, Bool.not_eq_true] at hexit
      refine (ih (k + 1)).trans ?_
      rw [and_congr_right_iff]
      intro hexiting
      rw [List.length_cons]
      constructor
      · intro hall j hle hge
        rcases Nat.lt_or_eq_of_le hle with hlt | rfl
        · exact hall j hlt (by omega)
        · exact ⟨Decidable.not_not.mp hfetch, hexit.2⟩
      · intro hall j hle hge
        exact hall j (by omega) (by omega)

theorem loop_rows {α : Type} {s : Select} {exiting : Bool} {k : ℕ} {rows : List α}
    (h : (s.loop exiting k rows).2 = .finished) : (s.loop exiting k rows).1 = rows := by
  induction rows generalizing k with
  | nil =>
    rw [Select.loop]
    split
    · rfl
    split <;> rfl
  | cons row rows ih =>
    rw [Select.loop] at h ⊢
    split at h
    · cases h
    split at h
    · cases h
    · rename_i hexit hfetch
      rw [if_neg hexit, if_neg hfetch]
      exact congrArg (row :: ·) (ih h)

/-- A query that ends without an exception and without an exit gives all rows. -/
theorem read_finished {α : Type} (s : Select) (exiting : Bool) (rows : List α) :
    (s.read exiting rows).2 = .finished ↔ exiting = false ∧ s.Clear rows.length := by
  rw [Select.read]
  split
  · rename_i hquery
    exact iff_of_false nofun fun h => hquery h.2.1
  · rename_i hquery
    rw [loop_finished]
    simp only [Nat.zero_le, Nat.zero_add, true_implies, Select.Clear,
      Decidable.not_not.mp hquery, true_and]

theorem read_rows {α : Type} {s : Select} {exiting : Bool} {rows : List α}
    (h : (s.read exiting rows).2 = .finished) : (s.read exiting rows).1 = rows := by
  rw [Select.read] at h ⊢
  split at h
  · cases h
  · rename_i hquery
    rw [if_neg hquery]
    exact loop_rows h

/-! ## The parts of the work -/

section

variable (cfg : Config) (t : Tables) (env : Env) (id : ℕ) (row : IndexRow)

variable (exiting : Bool)

theorem rebuild_metric_eq (m : MetricRow) :
    rebuild_metric cfg t env row exiting m =
      (let read := (env.metric m.metricId).read exiting (byTime (metricRows cfg t env row m))
      (.rebuild false m.metricId false ::
        ((read.1.map fun d => .metric (metricEvent cfg t row m d)) ++
          [.rebuild true m.metricId false]), read.2)) := by
  rw [rebuild_metric]
  obtain ⟨rows, ending⟩ :=
    (env.metric m.metricId).read exiting (byTime (metricRows cfg t env row m))
  cases ending <;> simp

theorem rebuild_status_eq :
    rebuild_status cfg t env id row exiting =
      (let read := env.status.read exiting (byTime (statusRows cfg t env id row))
      (.rebuild false id true ::
        ((read.1.map fun d => .status (statusEvent cfg t id row d)) ++
          [.rebuild true id true]), read.2)) := by
  rw [rebuild_status]
  obtain ⟨rows, ending⟩ := env.status.read exiting (byTime (statusRows cfg t env id row))
  cases ending <;> simp

theorem balanced_metric (m : MetricRow) :
    Balanced (rebuild_metric cfg t env row exiting m).1 := by
  rw [rebuild_metric_eq]
  refine .block _ _ ?_ .nil
  intro e he
  obtain ⟨d, -, rfl⟩ := List.mem_map.mp he
  rfl

theorem balanced_status :
    Balanced (rebuild_status cfg t env id row exiting).1 := by
  rw [rebuild_status_eq]
  refine .block _ _ ?_ .nil
  intro e he
  obtain ⟨d, -, rfl⟩ := List.mem_map.mp he
  rfl

theorem andThen_snd (r : List Event × Ending) (next : Bool → List Event × Ending) :
    (andThen r next).2 = r.2.andThen fun exiting => (next exiting).2 := by
  unfold andThen Ending.andThen
  cases r.2 <;> rfl

theorem balanced_andThen {r : List Event × Ending} {next : Bool → List Event × Ending}
    (hr : Balanced r.1) (hnext : ∀ exiting, Balanced (next exiting).1) :
    Balanced (andThen r next).1 := by
  rw [andThen]
  split
  · exact hr
  · exact hr.append (hnext false)
  · exact hr.append (hnext true)

theorem balanced_metrics (ms : List MetricRow) :
    Balanced (rebuild_metrics cfg t env row exiting ms).1 := by
  induction ms generalizing exiting with
  | nil => exact .nil
  | cons m ms ih =>
    rw [rebuild_metrics]
    split
    · exact .nil
    · exact balanced_andThen (balanced_metric cfg t env row exiting m) ih

theorem rebuild_metrics_snd (ms : List MetricRow) :
    (rebuild_metrics cfg t env row exiting ms).2 = metricsEnding cfg t env row exiting ms := by
  induction ms generalizing exiting with
  | nil => rfl
  | cons m ms ih =>
    rw [rebuild_metrics, metricsEnding]
    split
    · rfl
    · rw [andThen_snd, rebuild_metric_eq]
      exact congrArg _ (funext ih)

theorem balanced_all : Balanced (rebuild_all cfg t env id row).1 :=
  balanced_andThen .nil fun exiting =>
    balanced_andThen (balanced_metrics cfg t env row exiting _)
      (balanced_status cfg t env id row)

theorem rebuild_all_snd :
    (rebuild_all cfg t env id row).2 = callsEnding cfg t env id row := by
  have hstatus : ∀ exiting, (rebuild_status cfg t env id row exiting).2 =
      (env.status.read exiting (byTime (statusRows cfg t env id row))).2 :=
    fun exiting => congrArg Prod.snd (rebuild_status_eq cfg t env id row exiting)
  rw [rebuild_all, callsEnding]
  simp only [andThen_snd, rebuild_metrics_snd, hstatus]

/-! ## A rebuild that nothing comes into -/

theorem andThen_finished {e : Ending} {next : Bool → Ending} (htrue : next true ≠ .finished) :
    e.andThen next = .finished ↔ e = .finished ∧ next false = .finished := by
  cases e with
  | thrown gone => exact iff_of_false nofun fun h => nomatch h.1
  | exit => exact iff_of_false htrue fun h => nomatch h.1
  | finished => exact (and_iff_right rfl).symm

variable (ms : List MetricRow)

theorem metricsEnding_true : metricsEnding cfg t env row true ms = .exit := by
  cases ms with
  | nil => rfl
  | cons m ms => exact if_pos (.inl rfl)

theorem length_byTime (rows : List DataRow) : (byTime rows).length = rows.length :=
  (List.perm_insertionSort _ rows).length_eq

theorem metricsEnding_finished :
    metricsEnding cfg t env row false ms = .finished ↔ ∀ m ∈ ms, env.browse m.metricId = false ∧
      (env.metric m.metricId).Clear (metricRows cfg t env row m).length := by
  induction ms with
  | nil => exact iff_of_true rfl nofun
  | cons m ms ih =>
    rw [metricsEnding, List.forall_mem_cons]
    cases hbrowse : env.browse m.metricId with
    | true => exact iff_of_false (by simp) fun h => nomatch h.1.1
    | false =>
      rw [if_neg (by simp), andThen_finished (by rw [metricsEnding_true]; nofun), read_finished,
        length_byTime, ih]

theorem callsEnding_finished :
    callsEnding cfg t env id row = .finished ↔
      env.metrics.Clear (t.metricsOf id).length ∧
      (∀ m ∈ t.metricsOf id, env.browse m.metricId = false ∧
        (env.metric m.metricId).Clear (metricRows cfg t env row m).length) ∧
      env.status.Clear (statusRows cfg t env id row).length := by
  have hstatus : ∀ exiting,
      (env.status.read exiting (byTime (statusRows cfg t env id row))).2 = .finished ↔
        exiting = false ∧ env.status.Clear (statusRows cfg t env id row).length := by
    intro exiting
    rw [read_finished, length_byTime]
  have hlast : (env.status.read true (byTime (statusRows cfg t env id row))).2 ≠ .finished := by
    rw [ne_eq, hstatus]
    exact fun h => nomatch h.1
  rw [callsEnding, andThen_finished]
  · rw [andThen_finished hlast, hstatus, read_finished]
    constructor
    · rintro ⟨⟨-, hclear⟩, hmetrics, -, hrest⟩
      rw [read_rows ((read_finished _ _ _).mpr ⟨rfl, hclear⟩), metricsEnding_finished] at hmetrics
      exact ⟨hclear, hmetrics, hrest⟩
    · rintro ⟨hclear, hmetrics, hrest⟩
      refine ⟨⟨rfl, hclear⟩, ?_, rfl, hrest⟩
      rw [read_rows ((read_finished _ _ _).mpr ⟨rfl, hclear⟩), metricsEnding_finished]
      exact hmetrics
  · rw [metricsEnding_true]
    exact hlast

theorem quiet_iff :
    Quiet cfg t env id row ↔ env.interval = .ok ∧ env.mark = .ok ∧
      callsEnding cfg t env id row = .finished ∧ env.exitLast = false ∧ env.last = .ok := by
  rw [callsEnding_finished]
  constructor
  · intro h
    exact ⟨h.interval, h.mark, ⟨h.fetched, h.metrics, h.status⟩, h.exitLast, h.last⟩
  · rintro ⟨hinterval, hmark, ⟨hfetched, hmetrics, hstatus⟩, hexit, hlast⟩
    exact ⟨hinterval, hmark, hfetched, hmetrics, hstatus, hexit, hlast⟩

/-- The events of a metric, and those of the status. -/
def metricBlock (m : MetricRow) : List Event :=
  .rebuild false m.metricId false ::
    (((byTime (metricRows cfg t env row m)).map fun d => .metric (metricEvent cfg t row m d)) ++
      [.rebuild true m.metricId false])

def statusBlock : List Event :=
  .rebuild false id true ::
    (((byTime (statusRows cfg t env id row)).map fun d => .status (statusEvent cfg t id row d)) ++
      [.rebuild true id true])

theorem rebuild_metrics_fst {ms : List MetricRow}
    (h : metricsEnding cfg t env row false ms = .finished) :
    (rebuild_metrics cfg t env row false ms).1 = ms.flatMap (metricBlock cfg t env row) := by
  induction ms with
  | nil => rfl
  | cons m ms ih =>
    obtain ⟨⟨hbrowse, hclear⟩, hrest⟩ :=
      List.forall_mem_cons.mp ((metricsEnding_finished cfg t env row _).mp h)
    have hread : ((env.metric m.metricId).read false (byTime (metricRows cfg t env row m))).2 =
        .finished := by
      rw [read_finished, length_byTime]
      exact ⟨rfl, hclear⟩
    rw [rebuild_metrics, if_neg (by simp [hbrowse]), rebuild_metric_eq, andThen]
    simp only [hread, read_rows hread]
    rw [ih ((metricsEnding_finished cfg t env row _).mpr hrest)]
    rfl

theorem conclude_fst (marked : Tables) (r : List Event × Ending) :
    (conclude env id marked r).1 = r.1 := by
  rw [conclude]
  split <;> rfl

/-- All is published. -/
theorem rebuild_fst (h : Quiet cfg t env id row) : (rebuild cfg t env id row).1 =
    (t.metricsOf id).flatMap (metricBlock cfg t env row) ++ statusBlock cfg t env id row := by
  have hinterval := h.interval
  have hmark := h.mark
  have hfetched := (read_finished env.metrics false (t.metricsOf id)).mpr ⟨rfl, h.fetched⟩
  have hmetrics := (metricsEnding_finished cfg t env row _).mpr h.metrics
  have hstatus : (env.status.read false (byTime (statusRows cfg t env id row))).2 = .finished := by
    rw [read_finished, length_byTime]
    exact ⟨rfl, h.status⟩
  have hevents : (rebuild_all cfg t env id row).1 =
      (t.metricsOf id).flatMap (metricBlock cfg t env row) ++ statusBlock cfg t env id row := by
    rw [rebuild_all]
    simp only [andThen, hfetched, read_rows hfetched, rebuild_metrics_snd, hmetrics,
      rebuild_metrics_fst cfg t env row hmetrics, rebuild_status_eq, read_rows hstatus]
    rfl
  rw [rebuild, if_neg (by simp [hinterval]), if_neg (by simp [hmark]), conclude_fst]
  exact hevents

/-! ## A rebuild that something comes into -/

theorem balanced_rebuild : Balanced (rebuild cfg t env id row).1 := by
  rw [rebuild]
  split
  · exact .nil
  split
  · rw [conclude_fst]
    exact .nil
  · rw [conclude_fst]
    exact balanced_all cfg t env id row

theorem flagOf_flag {f : ℕ} (h : t.flagOf id = some f) (state : ℕ) :
    (t.flag id state).flagOf id = some state := by
  obtain ⟨r, hr, -⟩ := Option.map_eq_some_iff.mp h
  simp [Tables.flagOf, Tables.flag, hr]

/-- The flag behind the handler of exceptions, or behind the last `UPDATE`. -/
theorem flagOf_conclude {marked : Tables} {f : ℕ} (h : marked.flagOf id = some f)
    (r : List Event × Ending) :
    (conclude env id marked r).2.flagOf id = some 1 ↔
      match r.2 with
      | .thrown gone => gone = false ∧ env.unmark = .ok ∨ f = 1
      | .exit => env.last = .ok ∨ f = 1
      | .finished => if env.last = .ok then env.exitLast = true else f = 1 := by
  have hset := fun state => flagOf_flag marked id h state
  rw [conclude]
  cases r.2 with
  | thrown gone =>
    simp only [Bool.not_eq_true]
    split
    · rename_i hunmark
      rw [hset]
      exact iff_of_true rfl (.inl hunmark)
    · rename_i hunmark
      rw [h]
      simp [hunmark]
  | exit =>
    simp only [true_or, if_true]
    split
    · rename_i hlast
      rw [hset]
      exact iff_of_true rfl (.inl hlast)
    · rename_i hlast
      rw [h]
      simp [hlast]
  | finished =>
    simp only [reduceCtorEq, false_or]
    split
    · rw [hset]
      cases env.exitLast <;> simp
    · rw [h]
      simp

/-- The index is left flagged when something came in between, exactly when the flag could be put
back. -/
theorem flagOf_rebuild (htaken : t.flagOf id = some 1) (h : ¬ Quiet cfg t env id row) :
    (rebuild cfg t env id row).2.flagOf id = some 1 ↔ FlagFits cfg t env id row := by
  rw [rebuild]
  split
  · rename_i hinterval
    exact iff_of_true htaken fun hok => absurd hok hinterval
  rename_i hinterval
  split
  · rename_i hgone
    refine iff_of_true ?_ fun _ hne => absurd hgone hne
    rw [flagOf_conclude env id htaken]
    exact .inr rfl
  rename_i hgone
  have hfits : FlagFits cfg t env id row ↔
      if env.mark = .ok then
        match callsEnding cfg t env id row with
        | .thrown gone => gone = false ∧ env.unmark = .ok
        | _ => env.last = .ok
      else env.last = .ok → callsEnding cfg t env id row ≠ .finished ∨ env.exitLast = true :=
    ⟨fun hfit => hfit (Decidable.not_not.mp hinterval) hgone, fun hfit _ _ => hfit⟩
  rw [quiet_iff] at h
  rw [hfits]
  split
  · rename_i hmark
    rw [flagOf_conclude env id (flagOf_flag t id htaken 2), rebuild_all_snd]
    cases hending : callsEnding cfg t env id row with
    | thrown gone => simp
    | exit => simp
    | finished =>
      have hlast : env.last = .ok → env.exitLast = true := by
        intro hlast
        rw [← Bool.not_eq_false]
        intro hexit
        exact h ⟨Decidable.not_not.mp hinterval, hmark, hending, hexit, hlast⟩
      simp only
      split
      · rename_i hok
        exact iff_of_true (hlast hok) hok
      · rename_i hok
        exact iff_of_false (by decide) hok
  · rename_i hmark
    rw [flagOf_conclude env id htaken, rebuild_all_snd]
    cases callsEnding cfg t env id row with
    | thrown gone => simp
    | exit => simp
    | finished => simp

/-! ## The tables -/

theorem time_lt (d : DataRow) : time d < 2 ^ 32 := (BitVec.ofInt 32 d.ctime).isLt

theorem time_eq {d : DataRow} (h : 0 ≤ d.ctime ∧ d.ctime < 2 ^ 32) : (time d : ℤ) = d.ctime := by
  rw [time, BitVec.toNat_ofInt]
  omega

theorem mem_byTime {rows : List DataRow} {d : DataRow} : d ∈ byTime rows ↔ d ∈ rows :=
  (List.perm_insertionSort _ rows).mem_iff

/-- What is sorted is published in strictly increasing time, with the times it has, exactly when no
time comes twice. -/
theorem spread_iff (rows : List DataRow) :
    ((byTime rows).map time).Pairwise (· < ·) ∧
        (∀ c : ℤ, (∃ d ∈ byTime rows, (time d : ℤ) = c) ↔ ∃ d ∈ rows, d.ctime = c) ↔
      Spread rows := by
  have hperm : (byTime rows).Perm rows := List.perm_insertionSort _ rows
  constructor
  · rintro ⟨hincreasing, htimes⟩
    have hrange : ∀ d ∈ rows, 0 ≤ d.ctime ∧ d.ctime < 2 ^ 32 := by
      intro d hd
      obtain ⟨d', -, hd'⟩ := (htimes d.ctime).mpr ⟨d, hd, rfl⟩
      have hlt := time_lt d'
      omega
    refine ⟨?_, hrange⟩
    have hnodup : (rows.map time).Nodup :=
      (hperm.map time).nodup_iff.mp (hincreasing.imp fun h => Nat.ne_of_lt h)
    have hcast : rows.map DataRow.ctime = (rows.map time).map ((↑) : ℕ → ℤ) := by
      rw [List.map_map]
      exact List.map_congr_left fun d hd => (time_eq (hrange d hd)).symm
    rw [hcast]
    exact hnodup.map Nat.cast_injective
  · rintro ⟨hnodup, hrange⟩
    constructor
    · have hsorted : (byTime rows).Pairwise fun c d => c.ctime ≤ d.ctime :=
        List.pairwise_insertionSort _ rows
      have hne : (byTime rows).Pairwise fun c d => c.ctime ≠ d.ctime :=
        List.pairwise_map.mp ((hperm.map DataRow.ctime).nodup_iff.mpr hnodup)
      rw [List.pairwise_map]
      refine (hsorted.and hne).imp_of_mem ?_
      intro c d hc hd hcd
      have hc' := time_eq (hrange c (mem_byTime.mp hc))
      have hd' := time_eq (hrange d (mem_byTime.mp hd))
      have hlt := lt_of_le_of_ne hcd.1 hcd.2
      omega
    · intro c
      constructor
      · rintro ⟨d, hd, rfl⟩
        have hmem := mem_byTime.mp hd
        exact ⟨d, hmem, (time_eq (hrange d hmem)).symm⟩
      · rintro ⟨d, hd, rfl⟩
        exact ⟨d, mem_byTime.mpr hd, time_eq (hrange d hd)⟩

theorem checkInterval_iff :
    (checkInterval cfg t row : ℤ) = askedInterval cfg t row ↔ IntervalFits cfg t row := by
  have hmod : ((BitVec.ofInt 32 (foundInterval cfg t row)).toNat : ℤ) =
      foundInterval cfg t row % 2 ^ 32 := by
    rw [BitVec.toNat_ofInt]
    omega
  unfold checkInterval askedInterval IntervalFits
  dsimp only
  split <;> split <;> omega

theorem metricValues_iff (m : MetricRow) :
    MetricValues cfg t env row m
        ((byTime (metricRows cfg t env row m)).map (metricEvent cfg t row m)) ↔
      Spread (metricRows cfg t env row m) ∧
        (metricRows cfg t env row m ≠ [] →
          IntervalFits cfg t row ∧ (rrdLength cfg row).toNat < 2 ^ 31) := by
  have hincreasing : (((byTime (metricRows cfg t env row m)).map
      (metricEvent cfg t row m)).map Metric.ctime) =
        (byTime (metricRows cfg t env row m)).map time := List.map_map
  have hlength : (rrdLength cfg row).toInt = (rrdLength cfg row).toNat ↔
      (rrdLength cfg row).toNat < 2 ^ 31 := by
    rw [BitVec.toInt_eq_toNat_cond]
    split <;> omega
  rw [← spread_iff]
  constructor
  · rintro ⟨hinc, hrows, hcarried⟩
    refine ⟨⟨hincreasing ▸ hinc, ?_⟩, ?_⟩
    · intro c
      constructor
      · rintro ⟨d, hd, hc⟩
        obtain ⟨d', hd', hc', -⟩ :=
          (hrows c (published cfg d)).mp ⟨_, List.mem_map_of_mem hd, hc, rfl⟩
        exact ⟨d', hd', hc'⟩
      · rintro ⟨d, hd, hc⟩
        obtain ⟨e, he, hc', -⟩ := (hrows c (published cfg d)).mpr ⟨d, hd, hc, rfl⟩
        obtain ⟨d', hd', rfl⟩ := List.mem_map.mp he
        exact ⟨d', hd', hc'⟩
    · intro hne
      obtain ⟨d, hd⟩ := List.exists_mem_of_ne_nil _ hne
      have hd := hcarried _ (List.mem_map_of_mem (mem_byTime.mpr hd))
      exact ⟨(checkInterval_iff cfg t row).mp hd.1, hlength.mp hd.2⟩
  · rintro ⟨hspread, hshort⟩
    obtain ⟨-, hrange⟩ := (spread_iff _).mp hspread
    refine ⟨hincreasing ▸ hspread.1, ?_, ?_⟩
    · intro c v
      constructor
      · rintro ⟨e, he, hc, hv⟩
        obtain ⟨d, hd, rfl⟩ := List.mem_map.mp he
        have hmem := mem_byTime.mp hd
        exact ⟨d, hmem, (time_eq (hrange d hmem)).symm.trans hc, hv⟩
      · rintro ⟨d, hd, hc, hv⟩
        exact ⟨_, List.mem_map_of_mem (mem_byTime.mpr hd), (time_eq (hrange d hd)).trans hc, hv⟩
    · intro e he
      obtain ⟨d, hd, rfl⟩ := List.mem_map.mp he
      have hfits := hshort (List.ne_nil_of_mem (mem_byTime.mp hd))
      exact ⟨(checkInterval_iff cfg t row).mpr hfits.1, hlength.mpr hfits.2⟩

theorem statusValues_iff :
    StatusValues cfg t env id row
        ((byTime (statusRows cfg t env id row)).map (statusEvent cfg t id row)) ↔
      Spread (statusRows cfg t env id row) ∧
        (statusRows cfg t env id row ≠ [] →
          IntervalFits cfg t row ∧ cfg.rrdLen = rrdLength cfg row) := by
  have hincreasing : (((byTime (statusRows cfg t env id row)).map
      (statusEvent cfg t id row)).map Status.ctime) =
        (byTime (statusRows cfg t env id row)).map time := List.map_map
  rw [← spread_iff]
  constructor
  · rintro ⟨hinc, htimes, hcarried⟩
    refine ⟨⟨hincreasing ▸ hinc, ?_⟩, ?_⟩
    · intro c
      rw [← htimes c]
      constructor
      · rintro ⟨d, hd, hc⟩
        exact ⟨_, List.mem_map_of_mem hd, hc⟩
      · rintro ⟨e, he, hc⟩
        obtain ⟨d, hd, rfl⟩ := List.mem_map.mp he
        exact ⟨d, hd, hc⟩
    · intro hne
      obtain ⟨d, hd⟩ := List.exists_mem_of_ne_nil _ hne
      have hd := hcarried _ (List.mem_map_of_mem (mem_byTime.mpr hd))
      exact ⟨(checkInterval_iff cfg t row).mp hd.1, BitVec.eq_of_toNat_eq hd.2⟩
  · rintro ⟨⟨hinc, htimes⟩, hlength⟩
    refine ⟨hincreasing ▸ hinc, ?_, ?_⟩
    · intro c
      rw [← htimes c]
      constructor
      · rintro ⟨e, he, hc⟩
        obtain ⟨d, hd, rfl⟩ := List.mem_map.mp he
        exact ⟨d, hd, hc⟩
      · rintro ⟨d, hd, hc⟩
        exact ⟨_, List.mem_map_of_mem hd, hc⟩
    · intro e he
      obtain ⟨d, hd, rfl⟩ := List.mem_map.mp he
      have hfits := hlength (List.ne_nil_of_mem (mem_byTime.mp hd))
      exact ⟨(checkInterval_iff cfg t row).mpr hfits.1, congrArg BitVec.toNat hfits.2⟩

/-! ## The whole stream -/

variable (metric : ℕ)

theorem valuesOf_append (as bs : List Event) :
    valuesOf metric (as ++ bs) = valuesOf metric as ++ valuesOf metric bs :=
  List.filterMap_append

theorem valuesOf_metricBlock (m : MetricRow) :
    valuesOf metric (metricBlock cfg t env row m) =
      if m.metricId = metric then
        (byTime (metricRows cfg t env row m)).map (metricEvent cfg t row m) else [] := by
  rw [metricBlock, valuesOf, List.filterMap_cons_none rfl, List.filterMap_append,
    List.filterMap_map]
  have hevent : (fun | Event.metric v => if v.metricId = metric then some v else none | _ => none) ∘
      (fun d => Event.metric (metricEvent cfg t row m d)) =
      fun d => if m.metricId = metric then some (metricEvent cfg t row m d) else none := rfl
  rw [hevent]
  split
  · rw [List.filterMap_eq_map']
    exact List.append_nil _
  · rw [List.filterMap_none]
    rfl

theorem valuesOf_statusBlock :
    valuesOf metric (statusBlock cfg t env id row) = [] := by
  refine List.filterMap_eq_nil_iff.mpr ?_
  intro e he
  simp only [statusBlock, List.mem_cons, List.mem_append, List.mem_map, List.not_mem_nil,
    or_false] at he
  rcases he with rfl | ⟨d, -, rfl⟩ | rfl <;> rfl

/-- The values of a metric are those of its block. -/
theorem valuesOf_flatMap {ms : List MetricRow} (hnodup : (ms.map MetricRow.metricId).Nodup)
    {m : MetricRow} (hm : m ∈ ms) :
    valuesOf m.metricId (ms.flatMap (metricBlock cfg t env row)) =
      (byTime (metricRows cfg t env row m)).map (metricEvent cfg t row m) := by
  have hother : ∀ l : List MetricRow, m.metricId ∉ l.map MetricRow.metricId →
      valuesOf m.metricId (l.flatMap (metricBlock cfg t env row)) = [] := by
    intro l hl
    induction l with
    | nil => rfl
    | cons m' l ih =>
      rw [List.map_cons, List.mem_cons, not_or] at hl
      rw [List.flatMap_cons, valuesOf_append, valuesOf_metricBlock, if_neg (Ne.symm hl.1),
        ih hl.2]
      rfl
  induction ms with
  | nil => cases hm
  | cons m' ms ih =>
    rw [List.map_cons, List.nodup_cons] at hnodup
    rw [List.flatMap_cons, valuesOf_append, valuesOf_metricBlock]
    rcases List.mem_cons.mp hm with rfl | hrest
    · rw [if_pos rfl, hother ms hnodup.1, List.append_nil]
    · rw [if_neg, ih hnodup.2 hrest]
      · rfl
      · intro heq
        exact hnodup.1 (heq ▸ List.mem_map_of_mem hrest)

theorem statusesOf_stream :
    statusesOf (ms.flatMap (metricBlock cfg t env row) ++ statusBlock cfg t env id row) =
      (byTime (statusRows cfg t env id row)).map (statusEvent cfg t id row) := by
  have hmetrics : statusesOf (ms.flatMap (metricBlock cfg t env row)) = [] := by
    refine List.filterMap_eq_nil_iff.mpr ?_
    intro e he
    obtain ⟨m, -, he⟩ := List.mem_flatMap.mp he
    simp only [metricBlock, List.mem_cons, List.mem_append, List.mem_map, List.not_mem_nil,
      or_false] at he
    rcases he with rfl | ⟨d, -, rfl⟩ | rfl <;> rfl
  have hstatus : statusesOf (statusBlock cfg t env id row) =
      (byTime (statusRows cfg t env id row)).map (statusEvent cfg t id row) := by
    rw [statusBlock, statusesOf, List.filterMap_cons_none rfl, List.filterMap_append,
      List.filterMap_map]
    exact (congrArg (· ++ []) (congrFun List.filterMap_eq_map' _)).trans (List.append_nil _)
  rw [← hstatus]
  exact List.filterMap_append.trans (congrArg (· ++ statusesOf _) hmetrics)

theorem nodup_metricsOf : ((t.metricsOf id).map MetricRow.metricId).Nodup :=
  t.nodup.sublist (List.filter_sublist.map _)

/-- The whole stream is what is asked exactly when the tables fit. -/
theorem complete_iff :
    Complete cfg t env id row
        ((t.metricsOf id).flatMap (metricBlock cfg t env row) ++ statusBlock cfg t env id row) ↔
      TablesFit cfg t env id row := by
  have hvalues : ∀ m ∈ t.metricsOf id, valuesOf m.metricId
      ((t.metricsOf id).flatMap (metricBlock cfg t env row) ++ statusBlock cfg t env id row) =
        (byTime (metricRows cfg t env row m)).map (metricEvent cfg t row m) := by
    intro m hm
    rw [valuesOf_append, valuesOf_flatMap cfg t env row (nodup_metricsOf t id) hm,
      valuesOf_statusBlock, List.append_nil]
  have hstatuses := statusesOf_stream cfg t env id row (t.metricsOf id)
  constructor
  · intro h
    have hstatus := h.status
    rw [hstatuses, statusValues_iff] at hstatus
    refine ⟨?_, hstatus.1, hstatus.2⟩
    intro m hm
    have hmetric := h.metrics m hm
    rwa [hvalues m hm, metricValues_iff] at hmetric
  · intro h
    refine ⟨?_, ?_, ?_⟩
    · have hblocks : (t.metricsOf id).flatMap (metricBlock cfg t env row) =
          (t.metricsOf id).flatMap fun m =>
            .rebuild false m.metricId false :: (valuesOf m.metricId
              ((t.metricsOf id).flatMap (metricBlock cfg t env row) ++
                statusBlock cfg t env id row)).map .metric ++
              [.rebuild true m.metricId false] := by
        refine List.flatMap_congr ?_
        intro m hm
        rw [hvalues m hm, metricBlock, List.map_map]
        rfl
      rw [hstatuses, ← hblocks, List.map_map]
      rfl
    · intro m hm
      rw [hvalues m hm, metricValues_iff]
      exact h.metrics m hm
    · rw [hstatuses, statusValues_iff]
      exact ⟨h.status, h.length⟩

/-! ## Both together -/

/-- A rebuild is right exactly when the tables fit, where nothing comes in between, and the flag can
be put back, where something does. -/
theorem right_iff (htaken : t.flagOf id = some 1) :
    Right cfg t env id row ↔ (Quiet cfg t env id row → TablesFit cfg t env id row) ∧
      (¬ Quiet cfg t env id row → FlagFits cfg t env id row) := by
  refine and_congr ?_ ?_
  · refine forall_congr' ?_
    intro hquiet
    rw [rebuild_fst cfg t env id row hquiet, complete_iff]
  · refine forall_congr' ?_
    intro hquiet
    rw [flagOf_rebuild cfg t env id row htaken hquiet]
    exact and_iff_right (balanced_rebuild cfg t env id row)

end

/-- The index is one that the rebuilder takes. -/
def Taken (t : Tables) (id : ℕ) (row : IndexRow) : Prop :=
  t.indexData id = some row ∧ id ≠ 0 ∧ row.mustBeRebuilt = 1

/-- The rebuilds of all indexes that are taken are right exactly under these conditions. -/
theorem taken_right_iff (cfg : Config) (t : Tables) (env : ℕ → Env) :
    (∀ id row, Taken t id row → Right cfg t (env id) id row) ↔
      ∀ id row, Taken t id row →
        (Quiet cfg t (env id) id row → TablesFit cfg t (env id) id row) ∧
        (¬ Quiet cfg t (env id) id row → FlagFits cfg t (env id) id row) := by
  refine forall_congr' fun id => forall_congr' fun row => forall_congr' fun htaken => ?_
  have hflag : t.flagOf id = some 1 := by
    rw [Tables.flagOf, htaken.1, Option.map_some, htaken.2.2]
  exact right_iff cfg t (env id) id row hflag

/-- An index that is kept for an hour, where others are kept for two, with one row. -/
def hour : Tables :=
  { indexData := fun i => if i = 1 then some ⟨1, 1, 3600, 1⟩ else none
    metrics := [⟨7, 1, "rta".toList, "0".toList⟩]
    dataBin := [⟨7, 9000, none, 0⟩]
    hosts := []
    services := []
    nodup := List.nodup_singleton _ }

/-- No call fails, at ten thousand seconds. -/
def calm : Env :=
  let select : Select := ⟨.ok, fun _ => .ok, fun _ => false, 10000⟩
  ⟨.ok, .ok, select, fun _ => false, fun _ => select, select, .ok, false, .ok⟩

theorem quiet_calm (cfg : Config) (t : Tables) (id : ℕ) (row : IndexRow) :
    Quiet cfg t calm id row :=
  ⟨rfl, rfl, ⟨rfl, fun _ _ => ⟨rfl, rfl⟩⟩, fun _ _ => ⟨rfl, rfl, fun _ _ => ⟨rfl, rfl⟩⟩,
    ⟨rfl, fun _ _ => ⟨rfl, rfl⟩⟩, rfl, rfl⟩

/-- The status of the index carries the length of the others. -/
theorem not_taken_right : ¬ ∀ cfg t env id row, Taken t id row → Right cfg t env id row := by
  intro h
  have hquiet := quiet_calm ⟨60, 7200, 1⟩ hour 1 ⟨1, 1, 3600, 1⟩
  have hcomplete := (h ⟨60, 7200, 1⟩ hour calm 1 ⟨1, 1, 3600, 1⟩ ⟨rfl, by decide, rfl⟩).1 hquiet
  have hrows : (⟨7, 9000, none, 0⟩ : DataRow) ∈
      byTime (statusRows ⟨60, 7200, 1⟩ hour calm 1 ⟨1, 1, 3600, 1⟩) := by decide
  have hcarried := hcomplete.status.carried
  rw [rebuild_fst _ _ _ _ _ hquiet, statusesOf_stream] at hcarried
  exact absurd (hcarried _ (List.mem_map_of_mem hrows)).2 (by decide)

end CentreonBroker.Storage.Rebuilder
