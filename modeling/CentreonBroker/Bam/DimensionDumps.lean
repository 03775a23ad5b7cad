import CentreonBroker.Bam.DimensionContent

/-!
# The dumps of the dimensions

A dump is what comes between an opening and a closing signal. The dimension tables hold the last
one that was complete, and the time periods that are in memory are those that it declares, as long
as a closing signal closes a dump.
-/

namespace CentreonBroker.Bam

/-- The dump that is open, if there is one, and the last that was complete. -/
structure Dumps where
  opened : Option (List Dimension)
  last : List Dimension

namespace Dumps

open ReportingStream (Act)

def next (dumps : Dumps) : Act → Dumps
  | .write (some (.dimension_truncate_table_signal true)) => { dumps with opened := some [] }
  | .write (some (.dimension_truncate_table_signal false)) =>
    ⟨none, dumps.opened.getD dumps.last⟩
  | .write (some (.dimension d)) =>
    { dumps with opened := dumps.opened.map fun ds => ds ++ [d] }
  | .reopen _ => { dumps with opened := none }
  | _ => dumps

/-- After a sequence of calls. -/
def after (acts : List Act) : Dumps := acts.foldl next ⟨none, []⟩

/-- A closing signal closes a dump, unless there is nothing to lose; the tables accept the rows of
the dump, and a time period that cannot be parsed comes at its end; and the texts of the last dump
fit when the stream is built again. -/
def Careful (dumps : Dumps) : Act → Prop
  | .write (some (.dimension_truncate_table_signal false)) =>
    (dumps.opened = none → dumps.last = []) ∧
      ∀ ds ∈ dumps.opened, Storable ds ∧ ∀ d ∈ ds.dropLast, d.Accepted
  | .reopen _ => ∀ d ∈ dumps.last, d.Fits
  | _ => True

/-- Each step is careful. -/
def CarefulRun (dumps : Dumps) : List Act → Prop
  | [] => True
  | a :: acts => dumps.Careful a ∧ (dumps.next a).CarefulRun acts

end Dumps

/-! ## The dispatch of a dump -/

/-- The tables hold a dump, and the time periods in memory are those that it declares. -/
structure Content (dims : Dimensions) (m : TimeperiodMap) (ds : List Dimension) : Prop where
  tables : dims = stored ds
  memory : m = (declared ds).timeperiodMap
  stored_keys : (stored ds).Keys
  declared_keys : (declared ds).Keys

theorem content_nil : Content .new .new [] :=
  ⟨rfl, rfl, Dimensions.keys_new, Dimensions.keys_new⟩

namespace ReportingStream

variable {s s' : ReportingStream} {pre ds : List Dimension}

/-- A statement was run, and the next one will be. -/
structure Running (s : ReportingStream) : Prop where
  served : s.mysql.Served
  error : s.mysql.error = false
  need_commit : s.mysql.need_commit = true

theorem error_answered (db : Database) : db.answered.error = db.error := by
  unfold Mysql.Session.answered
  dsimp only
  split <;> rfl

/-- A statement on the dimension tables that they accept leaves the rest as it is. -/
theorem run_dimension {st : Statement} {answer : Answer} {tables : Tables}
    (hserved : s.mysql.Served) (herror : s.mysql.error = false)
    (hexec : s.mysql.tables.exec st = some (answer, tables)) :
    ∃ s₁, s.run_statement false st = some s₁ ∧ s₁.Running ∧ s₁.mysql.tables = tables ∧
      s₁.timeperiods = s.timeperiods ∧ s₁.dimension_data_cache = s.dimension_data_cache := by
  have hattempt := Mysql.Session.attempt_eq Tables.exec hserved st
  have hchecked : s.mysql.check_errors = some s.mysql := by
    rw [Mysql.Session.check_errors, herror]
    rfl
  have hrun : s.run_statement false st =
      some { s with mysql := s.mysql.answered.executed st tables } := by
    rw [run_statement, Mysql.Session.run_statement, hchecked, Option.map_some, hattempt, hexec]
    rfl
  exact ⟨_, hrun, ⟨(Mysql.Session.served_answered hserved).1,
    (error_answered s.mysql).trans herror, rfl⟩, rfl, rfl, rfl⟩

theorem truncate_spec {t : Truncated} (hserved : s.mysql.Served)
    (h : s.run_statement false (.dimension_truncate t) = some s') :
    s'.Running ∧ s'.mysql.tables.dimensions = s.mysql.tables.dimensions.truncate t ∧
      s'.dimension_data_cache = s.dimension_data_cache := by
  have herror : s.mysql.error = false := by
    obtain ⟨mysql, hrun, -⟩ := Option.map_eq_some_iff.mp h
    obtain ⟨_, hchecked, -⟩ := Option.map_eq_some_iff.mp hrun
    unfold Mysql.Session.check_errors at hchecked
    split at hchecked
    · cases hchecked
    · rename_i hne
      exact Bool.eq_false_iff.mpr hne
  have hexec : s.mysql.tables.exec (.dimension_truncate t) = some (⟨0, 0⟩,
      { s.mysql.tables with dimensions := s.mysql.tables.dimensions.truncate t }) := rfl
  obtain ⟨s₁, hrun, hrunning, htables, -, hcache⟩ := run_dimension hserved herror hexec
  cases hrun.symm.trans h
  exact ⟨hrunning, congrArg Tables.dimensions htables, hcache⟩

theorem truncate_tables_spec {tables : List Truncated} (hrunning : s.Running)
    (h : tables.foldlM (fun s t => s.run_statement false (.dimension_truncate t)) s = some s') :
    s'.Running ∧
      s'.mysql.tables.dimensions = tables.foldl Dimensions.truncate s.mysql.tables.dimensions ∧
      s'.dimension_data_cache = s.dimension_data_cache := by
  induction tables generalizing s with
  | nil =>
    cases h
    exact ⟨hrunning, rfl, rfl⟩
  | cons t tables ih =>
    rw [List.foldlM_cons] at h
    obtain ⟨s₁, hrun, h⟩ := Option.bind_eq_some_iff.mp h
    obtain ⟨hrunning₁, hdims, hcache⟩ := truncate_spec hrunning.served hrun
    obtain ⟨hrunning', hdims', hcache'⟩ := ih hrunning₁ h
    rw [hdims, ← List.foldl_cons] at hdims'
    exact ⟨hrunning', hdims', hcache'.trans hcache⟩

/-- Where a time period is not accepted, nothing of the dump comes after it. -/
theorem dispatch_spec (hrunning : s.Running)
    (hcontent : Content s.mysql.tables.dimensions s.timeperiods pre)
    (hparsed : (declared pre).Parsed) (hstorable : Storable (pre ++ ds))
    (haccepted : ∀ d ∈ ds.dropLast, d.Accepted) :
    (dimension_dispatch ds s).Running ∧
      Content (dimension_dispatch ds s).mysql.tables.dimensions
        (dimension_dispatch ds s).timeperiods (pre ++ ds) := by
  induction ds generalizing s pre with
  | nil =>
    rw [List.append_nil]
    exact ⟨hrunning, hcontent⟩
  | cons d ds ih =>
    have hrest : ∀ d' ∈ ds.dropLast, d'.Accepted := by
      intro d' hd'
      cases ds with
      | nil => cases hd'
      | cons _ _ => exact haccepted d' (List.mem_cons_of_mem _ hd')
    have haccepts : s.mysql.tables.dimensions.accepts d.row := by
      rw [hcontent.tables]
      exact hstorable pre d ds rfl
    have hexec : s.mysql.tables.exec (.dimension_insert d.row) = some (⟨1, 0⟩,
        { s.mysql.tables with dimensions := s.mysql.tables.dimensions.add d.row }) := by
      show Option.map _ (Dimensions.insert _ _) = _
      rw [Dimensions.insert, if_pos haccepts]
      rfl
    obtain ⟨s₁, hrun, hrunning₁, htables, hmemory, -⟩ :=
      run_dimension hrunning.served hrunning.error hexec
    rw [dimension_dispatch, hrun]
    dsimp only
    rw [hcontent.tables] at haccepts
    have hrefers := Dimensions.refers_of_accepts haccepts
    have hdims : s₁.mysql.tables.dimensions = stored (pre ++ [d]) := by
      rw [htables, stored_concat, ← hcontent.tables]
    have hstored : (stored (pre ++ [d])).Keys := by
      rw [stored_concat]
      exact hcontent.stored_keys.add hrefers
    rw [List.append_cons] at hstorable ⊢
    rw [hmemory, hcontent.memory, applyDimension_eq]
    cases hd : d.declaration with
    | none =>
      have hdeclared : declared (pre ++ [d]) = declared pre := by
        rw [declared_concat, hd]
        rfl
      have hnext : Content s₁.mysql.tables.dimensions (declared pre).timeperiodMap
          (pre ++ [d]) :=
        ⟨hdims, by rw [hdeclared], hstored, hdeclared ▸ hcontent.declared_keys⟩
      exact ih (s := { s₁ with timeperiods := _ }) ⟨hrunning₁.1, hrunning₁.2, hrunning₁.3⟩ hnext
        (hdeclared ▸ hparsed) hstorable hrest
    | some row =>
      have hdeclared : declared (pre ++ [d]) = (declared pre).add row := by
        rw [declared_concat, hd]
        rfl
      have hrow := refers_declaration hrefers hd
      have hkeys : (declared (pre ++ [d])).Keys := by
        rw [hdeclared]
        exact hcontent.declared_keys.add hrow
      rw [Option.elim_some]
      cases happly : row.apply (declared pre).timeperiodMap with
      | some m =>
        obtain ⟨rfl, hparsed'⟩ :=
          Dimensions.apply_add hcontent.declared_keys hparsed hrow happly
        rw [← hdeclared] at hparsed' ⊢
        exact ih (s := { s₁ with timeperiods := _ }) ⟨hrunning₁.1, hrunning₁.2, hrunning₁.3⟩
          ⟨hdims, rfl, hstored, hkeys⟩ hparsed' hstorable hrest
      | none =>
        -- the exception ends the loop: it was the end of the dump
        refine ⟨hrunning₁, ?_⟩
        cases ds with
        | nil =>
          rw [List.append_nil]
          refine ⟨hdims, ?_, hstored, hkeys⟩
          rw [hdeclared, Dimensions.timeperiodMap_add_refused hcontent.declared_keys hrow happly,
            hmemory, hcontent.memory]
        | cons d' ds =>
          cases d with
          | timeperiod tp =>
            cases hd
            have hsome := haccepted (.timeperiod tp) List.mem_cons_self tp rfl
            rw [Option.map_eq_none_iff.mp happly] at hsome
            cases hsome
          | timeperiod_exception _ | timeperiod_exclusion _ | ba_timeperiod_relation _ =>
            cases hd
            cases happly
          | _ => cases hd

/-- A commit of what was run leaves the tables in the database as they are seen. -/
theorem Running.commit (h : s.Running) : s.commit.mysql.Served ∧
    s.commit.mysql.durable = s.mysql.tables ∧ s.commit.mysql.tables = s.mysql.tables := by
  have hcommit : s.commit.mysql = { s.mysql.answered.save with need_commit := false } := by
    show s.mysql.commit = _
    rw [Mysql.Session.commit, if_pos h.need_commit, if_pos (Mysql.Session.good_reply h.served).1]
  obtain ⟨hserved, htables⟩ := Mysql.Session.served_answered h.served
  rw [hcommit]
  exact ⟨hserved, htables, htables⟩

/-! ## Runs -/

/-- The content of the last complete dump is there, and the dump that is open is kept. -/
structure Inv (dumps : Dumps) (s : ReportingStream) : Prop where
  served : s.mysql.Served
  content : Content s.mysql.tables.dimensions s.timeperiods dumps.last
  durable : s.mysql.durable.dimensions = s.mysql.tables.dimensions
  cache : s.dimension_data_cache = dumps.opened.getD []
  processing : s.processing_dimensions = dumps.opened.isSome

variable {dumps : Dumps} {offset : ℤ} {duration_intersect : Time.Timeperiod → ℤ → ℤ → ℕ}

theorem inv_new : Inv ⟨none, []⟩ (new Tables.new .new) :=
  ⟨Mysql.Session.served_new _, content_nil, rfl, rfl, rfl⟩

theorem Inv.frame (h : Inv dumps s) (hframe : Frame s s') : Inv dumps s' where
  served := hframe.served
  content := by
    rw [hframe.dimensions, hframe.timeperiods]
    exact h.content
  durable := hframe.durable h.durable
  cache := hframe.cache.trans h.cache
  processing := hframe.processing.trans h.processing

/-- What is counted does not matter. -/
theorem Inv.account (h : Inv dumps s) : Inv dumps s.account :=
  ⟨h.served, h.content, h.durable, h.cache, h.processing⟩

theorem Inv.dimension (h : Inv dumps s) (d : Dimension) :
    Inv (dumps.next (.write (some (.dimension d)))) (process_dimension d s) := by
  unfold process_dimension
  cases hopened : dumps.opened with
  | none =>
    have hclosed : ¬ s.processing_dimensions = true := by
      rw [h.processing, hopened]
      exact Bool.false_ne_true
    rw [if_neg hclosed]
    refine ⟨h.served, h.content, h.durable, ?_, ?_⟩
    · rw [h.cache, hopened, Dumps.next, hopened]
      rfl
    · rw [h.processing, hopened, Dumps.next, hopened]
      rfl
  | some ds =>
    have hopen : s.processing_dimensions = true := by
      rw [h.processing, hopened]
      rfl
    rw [if_pos hopen]
    refine ⟨h.served, h.content, h.durable, ?_, ?_⟩
    · show s.dimension_data_cache ++ [d] = _
      rw [h.cache, hopened, Dumps.next, hopened]
      rfl
    · show s.processing_dimensions = _
      rw [h.processing, hopened, Dumps.next, hopened]
      rfl

theorem Inv.opening (h : Inv dumps s)
    (hrun : process_dimension_truncate_signal true s = some s') :
    Inv (dumps.next (.write (some (.dimension_truncate_table_signal true)))) s' := by
  cases hrun
  exact ⟨h.served, h.content, h.durable, rfl, rfl⟩

/-- A closing signal replaces what was there. -/
theorem Inv.closing (h : Inv dumps s)
    (hcareful : dumps.Careful (.write (some (.dimension_truncate_table_signal false))))
    (hrun : process_dimension_truncate_signal false s = some s') :
    Inv (dumps.next (.write (some (.dimension_truncate_table_signal false)))) s' := by
  obtain ⟨hnothing, haccepted⟩ := hcareful
  rw [process_dimension_truncate_signal, if_neg Bool.false_ne_true] at hrun
  obtain ⟨s₁, htruncate, hrun⟩ := Option.bind_eq_some_iff.mp hrun
  cases hrun
  rw [dimension_truncate_tables, List.foldlM_cons] at htruncate
  obtain ⟨s₀, hfirst, htruncate⟩ := Option.bind_eq_some_iff.mp htruncate
  obtain ⟨hrunning₀, hdims₀, hcache₀⟩ := truncate_spec h.served hfirst
  obtain ⟨hrunning, hdims, hcache⟩ := truncate_tables_spec hrunning₀ htruncate
  have hempty : Content s₁.mysql.tables.dimensions TimeperiodMap.new [] := by
    have hall := Dimensions.truncate_all h.content.stored_keys
    rw [dimension_truncate_tables, List.foldl_cons] at hall
    rw [hdims, hdims₀, h.content.tables, hall]
    exact content_nil
  rw [hcache₀, h.cache] at hcache
  have hds : Storable s₁.dimension_data_cache ∧
      ∀ d ∈ s₁.dimension_data_cache.dropLast, d.Accepted := by
    rw [hcache]
    cases hopened : dumps.opened with
    | none =>
      refine ⟨fun pre d post heq => ?_, fun d hd => by cases hd⟩
      cases (List.append_eq_nil_iff.mp heq.symm).2
    | some ds => exact haccepted ds hopened
  obtain ⟨hdispatched, hcontent⟩ := dispatch_spec
    (s := { s₁ with timeperiods := TimeperiodMap.new }) ⟨hrunning.1, hrunning.2, hrunning.3⟩
    hempty (fun tp htp => by cases htp) hds.1 hds.2
  obtain ⟨hserved, hdurable, htables⟩ := hdispatched.commit
  refine ⟨hserved, ?_, congrArg Tables.dimensions (hdurable.trans htables.symm), rfl, rfl⟩
  rw [List.nil_append] at hcontent
  have hlast : dumps.opened.getD dumps.last = dumps.opened.getD [] := by
    cases hopened : dumps.opened with
    | none => exact hnothing hopened
    | some ds => rfl
  show Content (commit _).mysql.tables.dimensions _ (dumps.opened.getD dumps.last)
  rw [htables, hlast, ← hcache]
  exact hcontent

theorem Inv.reopen (h : Inv dumps s) {now : ℤ} (hfits : dumps.Careful (.reopen now))
    (hrun : s.reopen now = some s') : Inv (dumps.next (.reopen now)) s' := by
  obtain ⟨hserved, hload, hdims, hdurable, hcache, hprocessing⟩ :=
    reopen_spec h.served hrun h.durable
  rw [h.content.tables] at hload hdims
  refine ⟨hserved, ⟨hdims, ?_, h.content.stored_keys, h.content.declared_keys⟩, hdurable,
    hcache, hprocessing⟩
  rw [Dimensions.load_spec h.content.stored_keys hload, timeperiodMap_stored hfits]
  rfl

theorem Inv.act {a : Act} (h : Inv dumps s) (hcareful : dumps.Careful a)
    (hact : act offset duration_intersect a s = some s') : Inv (dumps.next a) s' := by
  cases a with
  | flush =>
    cases hact
    obtain ⟨hdurable, htables⟩ := durable_commit h.served h.durable
    refine ⟨Mysql.Session.served_commit h.served, ?_, ?_, h.cache, h.processing⟩
    · show Content s.mysql.commit.tables.dimensions _ _
      rw [htables]
      exact h.content
    · exact hdurable.trans (congrArg Tables.dimensions htables).symm
  | reopen now => exact h.reopen hcareful hact
  | write data =>
    obtain ⟨⟨n, s₁⟩, hwrite, rfl⟩ := Option.map_eq_some_iff.mp hact
    cases data with
    | none =>
      cases hwrite
      exact h.account
    | some data =>
      obtain ⟨s₂, hprocess, hs₂⟩ := Option.map_eq_some_iff.mp hwrite
      cases hs₂
      suffices hinv : Inv (dumps.next (.write (some data))) s₂ from
        ⟨hinv.served, hinv.content, hinv.durable, hinv.cache, hinv.processing⟩
      cases data with
      | dimension d =>
        cases hprocess
        exact h.account.dimension d
      | dimension_truncate_table_signal update_started =>
        cases update_started with
        | true => exact h.account.opening hprocess
        | false => exact h.account.closing hcareful hprocess
      | kpi_event ke => exact h.account.frame (frame_kpi_event h.served hprocess)
      | ba_event be => exact h.account.frame (frame_ba_event h.served hprocess)
      | ba_duration_event bde => exact h.account.frame (frame_ba_duration_event h.served hprocess)
      | rebuild bas_to_rebuild => exact h.account.frame (frame_rebuild h.served hprocess)
      | other =>
        cases hprocess
        exact h.account

theorem Inv.runs {acts : List Act} (h : Inv dumps s) (hcareful : dumps.CarefulRun acts)
    (hrun : runs offset duration_intersect acts s = some s') :
    Inv (acts.foldl Dumps.next dumps) s' := by
  induction acts generalizing dumps s with
  | nil =>
    cases hrun
    exact h
  | cons a acts ih =>
    obtain ⟨s₁, hact, hrun⟩ := Option.bind_eq_some_iff.mp hrun
    exact ih (h.act hcareful.1 hact) hcareful.2 hrun

end ReportingStream

theorem Dumps.CarefulRun.of_append {dumps : Dumps} {pre post : List ReportingStream.Act}
    (h : dumps.CarefulRun (pre ++ post)) : dumps.CarefulRun pre := by
  induction pre generalizing dumps with
  | nil => trivial
  | cons a pre ih => exact ⟨h.1, ih h.2⟩

/-- In every careful run, after each step, the dimension tables hold the last complete dump and
the time periods in memory are those that it declares. -/
theorem last_dump {offset : ℤ} {duration_intersect : Time.Timeperiod → ℤ → ℤ → ℕ}
    {pre post : List ReportingStream.Act} {s : ReportingStream}
    (hcareful : Dumps.CarefulRun ⟨none, []⟩ (pre ++ post))
    (hrun : ReportingStream.runs offset duration_intersect pre (.new Tables.new .new) = some s) :
    s.mysql.tables.dimensions = stored (Dumps.after pre).last ∧
      s.timeperiods = (declared (Dumps.after pre).last).timeperiodMap := by
  have hinv := ReportingStream.inv_new.runs hcareful.of_append hrun
  exact ⟨hinv.content.tables, hinv.content.memory⟩

/-- A time period of every day, and its relation to a BA. -/
def smallDump : List Dimension :=
  [.ba_event ⟨1, ['b'], [], 0, 0, 0, 0⟩, .timeperiod ⟨2, ['t'], [], [], [], [], [], [], []⟩,
    .ba_timeperiod_relation ⟨1, 2, true⟩]

/-- The calls for a dump. -/
def dumpCalls (ds : List Dimension) : List ReportingStream.Act :=
  .write (some (.dimension_truncate_table_signal true)) ::
    ds.map (fun d => .write (some (.dimension d))) ++
      [.write (some (.dimension_truncate_table_signal false))]

/-- After a dump, the connection is opened again. -/
theorem last_dump_reopened : ∃ s, ReportingStream.runs 0 (fun _ _ _ => 0)
      (dumpCalls smallDump ++ [.reopen 0]) (.new Tables.new .new) = some s ∧
    s.mysql.tables.dimensions = stored (Dumps.after (dumpCalls smallDump ++ [.reopen 0])).last ∧
      s.timeperiods =
        (declared (Dumps.after (dumpCalls smallDump ++ [.reopen 0])).last).timeperiodMap := by
  have hruns : ∃ s, ReportingStream.runs 0 (fun _ _ _ => 0)
      (dumpCalls smallDump ++ [.reopen 0]) (.new Tables.new .new) = some s := ⟨_, rfl⟩
  obtain ⟨s, hrun⟩ := hruns
  have haccepted : ∀ d ∈ smallDump, d.Accepted := by
    intro d hd tp hd'
    subst hd'
    simp [smallDump] at hd
    subst hd
    decide
  have hstorable : Storable smallDump := by
    intro pre d post heq
    match pre, heq with
    | [], heq | [_], heq | [_, _], heq =>
      cases heq
      rfl
    | _ :: _ :: _ :: pre, heq => simp [smallDump] at heq
  have hfits : ∀ d ∈ smallDump, d.Fits := by
    intro d hd row hrow
    simp [smallDump] at hd
    rcases hd with rfl | rfl | rfl <;> cases hrow <;> rfl
  have hcareful :
      Dumps.CarefulRun ⟨none, []⟩ (dumpCalls smallDump ++ [.reopen 0] ++ []) := by
    refine ⟨trivial, trivial, trivial, trivial, ⟨(fun h => by cases h), ?_⟩, hfits, trivial⟩
    intro ds hds
    cases hds
    exact ⟨hstorable, fun d hd => haccepted d (List.mem_of_mem_dropLast hd)⟩
  exact ⟨s, hrun, last_dump hcareful hrun⟩

/-- A second closing signal empties the tables. -/
theorem not_last_dump : ¬ ∀ (offset : ℤ)
    (duration_intersect : Time.Timeperiod → ℤ → ℤ → ℕ) (acts : List ReportingStream.Act)
    (s : ReportingStream),
    ReportingStream.runs offset duration_intersect acts (.new Tables.new .new) = some s →
    s.mysql.tables.dimensions = stored (Dumps.after acts).last ∧
      s.timeperiods = (declared (Dumps.after acts).last).timeperiodMap := by
  intro h
  have htables := (h 0 (fun _ _ _ => 0) (dumpCalls smallDump ++
    [.write (some (.dimension_truncate_table_signal false))]) _ rfl).1
  exact absurd htables (by decide)

end CentreonBroker.Bam
