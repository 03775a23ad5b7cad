import CentreonBroker.Database.Mapping
import CentreonBroker.Database.NamedParams

/-!
# Statements that are made from a table of members

`query_preparator` makes the text of a query and the mapping of its names in one pass over the
members of an event class. A member that is both inserted and updated has two keys, and the
positions of the second part of the text are counted from 0 before they are moved behind those of
the first.
-/

namespace CentreonBroker.Database

open Mapping

theorem lawful_names : LawfulBEq (List Char) := inferInstance

/-- A name is looked for in a set of names. -/
local instance decidableNamed (name : List Char) (names : List (List Char)) : Decidable (name ∈ names) :=
  @List.instDecidableMemOfLawfulBEq _ _ lawful_names name names

/-- `io::event_info`, with its table. -/
structure TableInfo (δ : Type) extends EventInfo δ where
  tableV2 : List Char

/-- The names of all members. -/
def TableInfo.names {δ : Type} (info : TableInfo δ) : List (List Char) :=
  info.mapping.filterMap Entry.mapped

/-- The constructor of `mysql_stmt` for a query and a mapping. -/
def Stmt.bound (query : List Char) (m : BindMapping) : Stmt where
  query := query
  bindMapping := m
  paramCount := if m.entries = [] then computeParamCount false false query else m.entries.length

/-- What is bound to each position, in the order of the calls. -/
def Stmt.assignments (s : Stmt) (binds : List (List Char × Call)) : List (ℕ × Call) :=
  binds.flatMap fun b => (s.bindByName b.1).map fun position => (position, b.2)

/-- `query.resize(query.size() - n)`. -/
def chop (n : ℕ) (query : List Char) : List Char := query.take (query.length - n)

/-- `query_preparator`. -/
structure QueryPreparator where
  eventId : ℕ
  excluded : List (List Char)
  unique : List (List Char)

namespace QueryPreparator

variable {δ : Type} (p : QueryPreparator)

/-- The name of a member that the loops do not leave out. -/
def taken (e : Entry δ) : Option (List Char) := e.mapped.filter (· ∉ p.excluded)

/-- A loop over the members. -/
def loop {σ : Type} (turn : σ → List Char → σ) (s : σ) (entries : List (Entry δ)) : σ :=
  entries.foldl (fun s e => match p.taken e with
    | some name => turn s name
    | none => s) s

/-- A text that is made, and the positions of its names. -/
structure Part where
  query : List Char
  mapping : BindMapping
  size : ℕ

/-- A mark behind some text, for a key. -/
def Part.mark (s : Part) (text key : List Char) : Part :=
  ⟨s.query ++ text, insertNew s.mapping key s.size, s.size + 1⟩

def notRegistered (what : String) : String :=
  s!"could not prepare {what} query for event of type {p.eventId}: event is not registered"

/-- One turn of the second loop of `prepareInsert`. -/
def insertTurn (s : Part) (name : List Char) : Part := s.mark "?,".toList (':' :: name)

def prepareInsert (info : Option (TableInfo δ)) (ignore : Bool) : Except String Stmt :=
  match info with
  | none => .error (p.notRegistered "insertion")
  | some info =>
    let query := (if ignore then "INSERT IGNORE INTO " else "INSERT INTO ").toList
    let query := query ++ info.tableV2 ++ " (".toList
    let query := p.loop (fun query name => query ++ name ++ ", ".toList) query info.mapping
    let query := chop 2 query ++ ") VALUES(".toList
    let values := p.loop insertTurn ⟨query, ∅, 0⟩ info.mapping
    .ok (Stmt.bound (chop 1 values.query ++ ")".toList) values.mapping)

/-- The positions of a mapping, moved behind others. -/
def merge (m other : BindMapping) (size : ℕ) : BindMapping :=
  other.entries.foldl (fun m e => insertNew m e.1 (e.2 + size)) m

/-- One turn of the second loop of `prepareInsertOrUpdate`, over both parts. -/
def insertOrUpdateTurn (s : Part × Part) (name : List Char) : Part × Part :=
  if name ∉ p.unique then
    (s.1.mark "?,".toList (':' :: name ++ ['1']),
      s.2.mark (name ++ "=?,".toList) (':' :: name ++ ['2']))
  else (s.1.mark "?,".toList (':' :: name), s.2)

/-- Both parts are put together. -/
def insertOrUpdateStmt (s : Part × Part) : Stmt :=
  Stmt.bound (chop 1 s.1.query ++ ") ".toList ++ chop 1 s.2.query)
    (merge s.1.mapping s.2.mapping s.1.size)

def prepareInsertOrUpdate (info : Option (TableInfo δ)) : Except String Stmt :=
  match info with
  | none => .error (p.notRegistered "insertion")
  | some info =>
    let insert := "INSERT INTO ".toList ++ info.tableV2 ++ " (".toList
    let update := " ON DUPLICATE KEY UPDATE ".toList
    let insert := p.loop (fun insert name => insert ++ name ++ ",".toList) insert info.mapping
    let insert := chop 1 insert ++ ") VALUES(".toList
    let s := p.loop p.insertOrUpdateTurn (⟨insert, ∅, 0⟩, ⟨update, ∅, 0⟩) info.mapping
    .ok (insertOrUpdateStmt s)

/-- One turn of the loop of `prepareUpdate`, over the fields and the condition. -/
def updateTurn (s : Part × Part) (name : List Char) : Part × Part :=
  if name ∉ p.unique then (s.1.mark (name ++ "=?,".toList) (':' :: name), s.2)
  else (s.1, s.2.mark (name ++ "=? AND ".toList) (':' :: name))

def updateStmt (s : Part × Part) : Stmt :=
  Stmt.bound (chop 1 s.1.query ++ chop 5 s.2.query) (merge s.1.mapping s.2.mapping s.1.size)

def prepareUpdate (info : Option (TableInfo δ)) : Except String Stmt :=
  match info with
  | none => .error (p.notRegistered "update")
  | some info =>
    let query := "UPDATE ".toList ++ info.tableV2 ++ " SET ".toList
    let s := p.loop p.updateTurn (⟨query, ∅, 0⟩, ⟨" WHERE ".toList, ∅, 0⟩) info.mapping
    .ok (updateStmt s)

/-! ## What the marks stand for -/

/-- The columns of the queries. -/
def columns (info : TableInfo δ) : List (List Char) := info.names.filter (· ∉ p.excluded)

/-- The columns that are no part of the key. -/
def fields (info : TableInfo δ) : List (List Char) := (p.columns info).filter (· ∉ p.unique)

def keys (info : TableInfo δ) : List (List Char) := (p.columns info).filter (· ∈ p.unique)

/-- The columns and as many marks, in the same order. -/
def insertText (ignore : Bool) (table : List Char) (columns : List (List Char)) : List Char :=
  (if ignore then "INSERT IGNORE INTO " else "INSERT INTO ").toList ++ table ++ " (".toList ++
    ", ".toList.intercalate columns ++ ") VALUES(".toList ++
    ",".toList.intercalate (columns.map fun _ => ['?']) ++ ")".toList

/-- A mark that is given to a column. -/
def assigned (name : List Char) : List Char := name ++ "=?".toList

def insertOrUpdateText (table : List Char) (columns fields : List (List Char)) : List Char :=
  "INSERT INTO ".toList ++ table ++ " (".toList ++ ",".toList.intercalate columns ++
    ") VALUES(".toList ++ ",".toList.intercalate (columns.map fun _ => ['?']) ++
    ") ".toList ++ " ON DUPLICATE KEY UPDATE ".toList ++
    ",".toList.intercalate (fields.map assigned)

def updateText (table : List Char) (fields keys : List (List Char)) : List Char :=
  "UPDATE ".toList ++ table ++ " SET ".toList ++
    ",".toList.intercalate (fields.map assigned) ++ " WHERE ".toList ++
    " AND ".toList.intercalate (keys.map assigned)

end QueryPreparator

/-- The names differ, also from those with a digit behind them. -/
structure TableInfo.Columns {δ : Type} (info : TableInfo δ) : Prop where
  distinct : info.names.Nodup
  apart : ∀ n ∈ info.names, ∀ k ∈ info.names, n ≠ k ++ ['1'] ∧ n ≠ k ++ ['2']

/-- No name has the character of the marks in it. -/
structure TableInfo.Plain {δ : Type} (info : TableInfo δ) : Prop where
  names : ∀ n ∈ info.names, '?' ∉ n
  table : '?' ∉ info.tableV2

/-- Each mark gets the value of its column, once, when an event is bound. -/
structure Stmt.BindsOnce {δ : Type} (s : Stmt) (info : TableInfo δ)
    (columns : List (List Char)) : Prop where
  marks : info.Plain → s.query.count '?' = columns.length
  count : s.paramCount = columns.length
  once : ∀ (type : ℕ) (d : δ) (binds : List (List Char × Call)),
    bindEvent type (some info.toEventInfo) d = .ok binds →
      ∃ value : List Char → Call,
        (∀ e ∈ info.mapping, ∀ n, e.mapped = some n → e.call info.name d = .ok (value n)) ∧
        (s.assignments binds).Perm (columns.zipIdx.map fun c => (c.2, value c.1))

/-! ## The mappings -/

/-- Keys that are put in a mapping, one after the other. -/
def insertAll (m : BindMapping) (kvs : List (List Char × ℕ)) : BindMapping :=
  kvs.foldl (fun m kv => insertNew m kv.1 kv.2) m

theorem insertNew_new {kv : List Char × ℕ} {kvs : List (List Char × ℕ)} {m : BindMapping}
    (hnodup : ((kv :: kvs).map Prod.fst).Nodup) (hnew : ∀ kv' ∈ kv :: kvs, m.lookup kv'.1 = none) :
    ∀ kv' ∈ kvs, (insertNew m kv.1 kv.2).lookup kv'.1 = none := by
  intro kv' hkv'
  have hne : kv'.1 ≠ kv.1 := fun heq =>
    (List.nodup_cons.mp hnodup).1 (heq ▸ List.mem_map_of_mem hkv')
  rw [BindMapping.lookup_insert_absent (hnew kv List.mem_cons_self), if_neg hne]
  exact hnew kv' (List.mem_cons_of_mem _ hkv')

/-- Keys that are all new are there with their positions. -/
theorem lookup_insertAll {kvs : List (List Char × ℕ)} {m : BindMapping}
    (hnodup : (kvs.map Prod.fst).Nodup) (hnew : ∀ kv ∈ kvs, m.lookup kv.1 = none)
    (k : List Char) (v : ℕ) :
    (insertAll m kvs).lookup k = some v ↔ m.lookup k = some v ∨ (k, v) ∈ kvs := by
  induction kvs generalizing m with
  | nil => exact (or_iff_left List.not_mem_nil).symm
  | cons kv kvs ih =>
    have hkv := hnew kv List.mem_cons_self
    have hlookup := BindMapping.lookup_insert_absent hkv kv.2
    have hnew' := insertNew_new hnodup hnew
    refine (ih hnodup.of_cons hnew').trans ?_
    rw [hlookup, List.mem_cons, ← or_assoc]
    refine or_congr_left ?_
    by_cases hk : k = kv.1
    · rw [if_pos hk, hk, hkv]
      constructor
      · intro h
        exact .inr (by rw [← Option.some.inj h])
      · rintro (h | h)
        · cases h
        · rw [← h]
    · rw [if_neg hk]
      exact (or_iff_left fun h => hk (congrArg Prod.fst h)).symm

theorem length_insertAll {kvs : List (List Char × ℕ)} {m : BindMapping}
    (hnodup : (kvs.map Prod.fst).Nodup) (hnew : ∀ kv ∈ kvs, m.lookup kv.1 = none) :
    (insertAll m kvs).entries.length = m.entries.length + kvs.length := by
  induction kvs generalizing m with
  | nil => rfl
  | cons kv kvs ih =>
    have hkv := hnew kv List.mem_cons_self
    have hnew' := insertNew_new hnodup hnew
    change (insertAll (insertNew m kv.1 kv.2) kvs).entries.length = _
    rw [ih hnodup.of_cons hnew', BindMapping.length_insert_absent hkv, List.length_cons]
    omega

/-! ## The loops -/

namespace QueryPreparator

variable {δ : Type} (p : QueryPreparator)

/-- A loop goes over the columns. -/
theorem loop_eq {σ : Type} (turn : σ → List Char → σ) (s : σ) (info : TableInfo δ) :
    p.loop turn s info.mapping = (p.columns info).foldl turn s := by
  rw [loop, columns, TableInfo.names]
  generalize info.mapping = entries
  induction entries generalizing s with
  | nil => rfl
  | cons e entries ih =>
    rw [List.foldl_cons, ih, List.filterMap_cons, taken]
    cases e.mapped with
    | none => rfl
    | some name =>
      rw [Option.filter_some]
      by_cases hname : name ∈ p.excluded
      · rw [if_neg (by simpa using hname), List.filter_cons_of_neg (by simpa using hname)]
      · rw [if_pos (by simpa using hname), List.filter_cons_of_pos (by simpa using hname)]
        rfl

/-- Marks that each have some text. -/
theorem foldl_mark (text key : List Char → List Char) (names : List (List Char)) (s : Part) :
    names.foldl (fun s name => s.mark (text name) (key name)) s =
      ⟨s.query ++ names.flatMap text, insertAll s.mapping ((names.map key).zipIdx s.size),
        s.size + names.length⟩ := by
  induction names generalizing s with
  | nil => rw [List.foldl_nil, List.flatMap_nil, List.append_nil]; rfl
  | cons name names ih =>
    rw [List.foldl_cons, ih, Part.mark, List.flatMap_cons, List.map_cons, List.zipIdx_cons,
      List.length_cons, List.append_assoc, Nat.add_assoc, Nat.add_comm 1]
    rfl

/-- The key of an inserted column, which has a digit when it is updated too. -/
def insertKey (name : List Char) : List Char :=
  if name ∉ p.unique then ':' :: name ++ ['1'] else ':' :: name

/-- The two parts are made apart. -/
theorem foldl_insertOrUpdate (names : List (List Char)) (s : Part × Part) :
    names.foldl p.insertOrUpdateTurn s =
      (names.foldl (fun s name => s.mark "?,".toList (p.insertKey name)) s.1,
        (names.filter (· ∉ p.unique)).foldl
          (fun s name => s.mark (name ++ "=?,".toList) (':' :: name ++ ['2'])) s.2) := by
  induction names generalizing s with
  | nil => rfl
  | cons name names ih =>
    rw [List.foldl_cons, ih, insertOrUpdateTurn, List.foldl_cons, insertKey]
    by_cases hname : name ∉ p.unique
    · rw [if_pos hname, if_pos hname, List.filter_cons_of_pos (by simpa using hname)]
      rfl
    · rw [if_neg hname, if_neg hname, List.filter_cons_of_neg (by simpa using hname)]

theorem foldl_update (names : List (List Char)) (s : Part × Part) :
    names.foldl p.updateTurn s =
      ((names.filter (· ∉ p.unique)).foldl
          (fun s name => s.mark (name ++ "=?,".toList) (':' :: name)) s.1,
        (names.filter (· ∈ p.unique)).foldl
          (fun s name => s.mark (name ++ "=? AND ".toList) (':' :: name)) s.2) := by
  induction names generalizing s with
  | nil => rfl
  | cons name names ih =>
    rw [List.foldl_cons, ih, updateTurn]
    by_cases hname : name ∈ p.unique
    · rw [if_neg (not_not.mpr hname), List.filter_cons_of_neg (by simpa using hname),
        List.filter_cons_of_pos (by simpa using hname)]
      rfl
    · rw [if_pos hname, List.filter_cons_of_pos (by simpa using hname),
        List.filter_cons_of_neg (by simpa using hname)]
      rfl

/-! ## The texts -/

theorem foldl_text (sep : List Char) (names : List (List Char)) (query : List Char) :
    names.foldl (fun query name => query ++ name ++ sep) query =
      query ++ names.flatMap fun name => name ++ sep := by
  induction names generalizing query with
  | nil => rw [List.foldl_nil, List.flatMap_nil, List.append_nil]
  | cons name names ih =>
    rw [List.foldl_cons, ih, List.flatMap_cons, List.append_assoc, List.append_assoc,
      List.append_assoc]

variable {sep : List Char}

/-- The last separator is taken off. -/
theorem chop_flatMap (f : List Char → List Char) {n : ℕ} (hn : sep.length = n)
    {names : List (List Char)} (hne : names ≠ []) (query : List Char) :
    chop n (query ++ names.flatMap fun name => f name ++ sep) =
      query ++ sep.intercalate (names.map f) := by
  have hflat : (names.flatMap fun name => f name ++ sep) =
      sep.intercalate (names.map f) ++ sep := by
    induction names with
    | nil => exact absurd rfl hne
    | cons name names ih =>
      cases names with
      | nil => simp
      | cons name' names =>
        rw [List.flatMap_cons, ih (List.cons_ne_nil _ _)]
        simp only [List.map_cons, List.intercalate_cons_cons, List.append_assoc]
  rw [hflat, ← List.append_assoc, chop, List.length_append, hn, Nat.add_sub_cancel,
    List.take_append_of_le_length (le_refl _), List.take_length]

theorem count_intercalate {c : Char} (h : c ∉ sep) (l : List (List Char)) :
    (sep.intercalate l).count c = (l.map (List.count c)).sum := by
  induction l with
  | nil => rfl
  | cons s l ih =>
    cases l with
    | nil => simp
    | cons s' l =>
      rw [List.intercalate_cons_cons, List.count_append, List.count_append, ih,
        List.count_eq_zero_of_not_mem h, List.map_cons, List.sum_cons]
      rfl

/-- Names without a mark. -/
theorem count_names (h : '?' ∉ sep) {names : List (List Char)}
    (hplain : ∀ n ∈ names, '?' ∉ n) : (sep.intercalate names).count '?' = 0 := by
  rw [count_intercalate h, List.sum_eq_zero_iff]
  intro x hx
  obtain ⟨n, hn, rfl⟩ := List.mem_map.mp hx
  exact List.count_eq_zero_of_not_mem (hplain n hn)

/-- One mark for each name. -/
theorem count_marks (h : '?' ∉ sep) {f : List Char → List Char}
    {names : List (List Char)} (hone : ∀ n ∈ names, (f n).count '?' = 1) :
    (sep.intercalate (names.map f)).count '?' = names.length := by
  have hones : (names.map f).map (List.count '?') = names.map fun _ => 1 := by
    rw [List.map_map]
    exact List.map_congr_left hone
  rw [count_intercalate h, hones, List.map_const', List.sum_replicate, smul_eq_mul, Nat.mul_one]

end QueryPreparator

/-! ## The positions of the columns -/

theorem positions_append {keys keys' : List (List Char)} (k : List Char) :
    positions (keys ++ keys') k =
      positions keys k ++ (positions keys' k).map (· + keys.length) := by
  induction keys' using List.reverseRecOn with
  | nil => simp [positions]
  | append_singleton keys' key ih =>
    rw [← List.append_assoc, positions_concat, ih, positions_concat, List.map_append,
      List.append_assoc, List.length_append]
    split
    · rw [List.map_singleton, Nat.add_comm]
    · rfl

theorem positions_eq_nil {keys : List (List Char)} {k : List Char} (h : k ∉ keys) :
    positions keys k = [] := by
  rw [List.eq_nil_iff_forall_not_mem]
  intro i hi
  exact h (mem_of_positions hi)

theorem positions_eq_singleton {keys : List (List Char)} (hnodup : keys.Nodup) {k : List Char}
    {i : ℕ} (h : keys[i]? = some k) : positions keys k = [i] := by
  have hmem : i ∈ positions keys k := mem_positions.mpr h
  have hlength : (positions keys k).length = 1 := by
    rw [length_positions]
    exact List.count_eq_one_of_mem hnodup (List.mem_of_getElem? h)
  obtain ⟨j, hj⟩ := List.length_eq_one_iff.mp hlength
  rw [hj] at hmem ⊢
  rw [List.mem_singleton.mp hmem]

/-- Each position is that of one name. -/
theorem perm_positions {names columns : List (List Char)} (hnodup : names.Nodup)
    (hmem : ∀ c ∈ columns, c ∈ names) (value : List Char → Call) :
    (names.flatMap fun n => (positions columns n).map fun i => (i, value n)).Perm
      (columns.zipIdx.map fun c => (c.2, value c.1)) := by
  have hmap : ∀ n, ((positions columns n).map fun i => (i, value n)).Nodup := by
    intro n
    refine List.Nodup.map ?_ (List.nodup_range.filter _)
    intro i j hij
    exact congrArg Prod.fst hij
  refine (List.perm_ext_iff_of_nodup ?_ ?_).mpr ?_
  · refine List.nodup_flatMap.mpr ⟨fun n _ => hmap n, hnodup.imp ?_⟩
    intro n n' hne
    rw [Function.onFun, List.disjoint_left]
    intro a ha ha'
    obtain ⟨i, hi, rfl⟩ := List.mem_map.mp ha
    obtain ⟨j, hj, heq⟩ := List.mem_map.mp ha'
    obtain rfl : j = i := congrArg Prod.fst heq
    exact hne (Option.some.inj ((mem_positions.mp hi).symm.trans (mem_positions.mp hj)))
  · refine List.Nodup.of_map Prod.fst ?_
    rw [List.map_map]
    change (columns.zipIdx.map Prod.snd).Nodup
    rw [List.zipIdx_map_snd]
    exact List.nodup_range'
  · intro a
    rw [List.mem_flatMap, List.mem_map]
    constructor
    · rintro ⟨n, -, ha⟩
      obtain ⟨i, hi, rfl⟩ := List.mem_map.mp ha
      exact ⟨(n, i), List.mem_zipIdx_iff_getElem?.mpr (mem_positions.mp hi), rfl⟩
    · rintro ⟨c, hc, rfl⟩
      have hc := List.mem_zipIdx_iff_getElem?.mp hc
      exact ⟨c.1, hmem c.1 (List.mem_of_getElem? hc),
        List.mem_map.mpr ⟨c.2, mem_positions.mpr hc, rfl⟩⟩

/-! ## Binding an event -/

section Binding

variable {δ : Type} {info : TableInfo δ}

theorem mapM_bind_values {entries : List (Entry δ)} {name : String} {d : δ}
    (h : (entries.filterMap Entry.mapped).Nodup) {binds : List (Option (List Char × Call))}
    (hbinds : (entries.mapM fun e => e.bind name d) = .ok binds) :
    ∃ value : List Char → Call,
      (∀ e ∈ entries, ∀ n, e.mapped = some n → e.call name d = .ok (value n)) ∧
      binds.reduceOption = (entries.filterMap Entry.mapped).map fun n => (':' :: n, value n) := by
  induction entries generalizing binds with
  | nil =>
    obtain rfl : [] = binds := Except.ok.inj hbinds
    refine ⟨fun _ => .null, ?_, rfl⟩
    intro e he
    cases he
  | cons e entries ih =>
    rw [List.mapM_cons] at hbinds
    cases hbind : e.bind name d with
    | error f => rw [hbind] at hbinds; cases hbinds
    | ok b =>
      rw [hbind] at hbinds
      cases hrest : entries.mapM fun e => e.bind name d with
      | error f => rw [hrest] at hbinds; cases hbinds
      | ok bs =>
        rw [hrest] at hbinds
        obtain rfl : b :: bs = binds := Except.ok.inj hbinds
        rw [Entry.bind] at hbind
        cases hmapped : e.mapped with
        | none =>
          rw [hmapped] at hbind
          obtain rfl : none = b := Except.ok.inj hbind
          rw [List.filterMap_cons_none hmapped] at h ⊢
          obtain ⟨value, hvalue, heq⟩ := ih h hrest
          refine ⟨value, ?_, heq⟩
          intro e' he' n hn
          rcases List.mem_cons.mp he' with rfl | hmem
          · rw [hmapped] at hn
            cases hn
          · exact hvalue e' hmem n hn
        | some field =>
          rw [hmapped] at hbind
          rw [List.filterMap_cons_some hmapped, List.nodup_cons] at h
          rw [List.filterMap_cons_some hmapped]
          obtain ⟨value, hvalue, heq⟩ := ih h.2 hrest
          cases hcall : e.call name d with
          | error f => rw [hcall] at hbind; cases hbind
          | ok c =>
            rw [hcall] at hbind
            obtain rfl : some (':' :: field, c) = b := Except.ok.inj hbind
            -- the names behind are other ones
            have hother : ∀ n ∈ entries.filterMap Entry.mapped,
                Function.update value field c n = value n := by
              intro n hn
              refine Function.update_of_ne ?_ _ _
              rintro rfl
              exact h.1 hn
            refine ⟨Function.update value field c, ?_, ?_⟩
            · intro e' he' n hn
              rcases List.mem_cons.mp he' with rfl | hmem
              · obtain rfl : field = n := Option.some.inj (hmapped.symm.trans hn)
                rw [Function.update_self]
                exact hcall
              · rw [hother n (List.mem_filterMap.mpr ⟨e', hmem, hn⟩)]
                exact hvalue e' hmem n hn
            · rw [List.reduceOption_cons_of_some, heq, List.map_cons, Function.update_self]
              refine congrArg _ (List.map_congr_left fun n hn => ?_)
              rw [hother n hn]

/-- What is bound for the name of each member. -/
theorem bindEvent_values (h : info.names.Nodup) {type : ℕ} {d : δ}
    {binds : List (List Char × Call)}
    (hbinds : bindEvent type (some info.toEventInfo) d = .ok binds) :
    ∃ value : List Char → Call,
      (∀ e ∈ info.mapping, ∀ n, e.mapped = some n → e.call info.name d = .ok (value n)) ∧
      binds = info.names.map fun n => (':' :: n, value n) := by
  rw [bindEvent] at hbinds
  cases hall : info.mapping.mapM fun e : Entry δ => e.bind info.name d with
  | error f => rw [hall] at hbinds; cases hbinds
  | ok bs =>
    rw [hall] at hbinds
    obtain rfl : bs.reduceOption = binds := Except.ok.inj hbinds
    exact mapM_bind_values h hall

/-- A name is bound to where it is in the list of the columns. -/
def Places (s : Stmt) (names columns : List (List Char)) : Prop :=
  ∀ n ∈ names, s.bindByName (':' :: n) = positions columns n

/-- **A statement whose mapping places the columns binds each of its marks once.** -/
theorem bindsOnce_of_places (h : info.Columns) {s : Stmt} {columns : List (List Char)}
    (hmarks : info.Plain → s.query.count '?' = columns.length)
    (hcount : s.paramCount = columns.length)
    (hmem : ∀ c ∈ columns, c ∈ info.names) (hplaces : Places s info.names columns) :
    s.BindsOnce info columns where
  marks := hmarks
  count := hcount
  once := by
    intro type d binds hbinds
    obtain ⟨value, hvalue, rfl⟩ := bindEvent_values h.distinct hbinds
    refine ⟨value, hvalue, ?_⟩
    have hassign : s.assignments (info.names.map fun n => (':' :: n, value n)) =
        info.names.flatMap fun n => (positions columns n).map fun i => (i, value n) := by
      rw [Stmt.assignments, List.flatMap_map]
      refine List.flatMap_congr fun n hn => ?_
      rw [hplaces n hn]
    rw [hassign]
    exact perm_positions h.distinct hmem value

/-! ## The mappings of the statements -/

/-- The mapping has the keys of the marks, by their positions. -/
structure Numbers (m : BindMapping) (keys : List (List Char)) : Prop where
  lookup_iff : ∀ k v, m.lookup k = some v ↔ keys[v]? = some k
  length : m.entries.length = keys.length

theorem lookup_empty (k : List Char) : (∅ : BindMapping).lookup k = none := rfl

variable {keys : List (List Char)}

theorem numbers_insertAll (h : keys.Nodup) :
    Numbers (insertAll ∅ keys.zipIdx) keys := by
  have hkeys : keys.zipIdx.map Prod.fst = keys := List.zipIdx_map_fst 0 keys
  have hnew : ∀ kv ∈ keys.zipIdx, (∅ : BindMapping).lookup kv.1 = none := fun kv _ => rfl
  constructor
  · intro k v
    rw [lookup_insertAll (hkeys.symm ▸ h) hnew, lookup_empty]
    exact (or_iff_right fun h => by cases h).trans List.mk_mem_zipIdx_iff_getElem?
  · rw [length_insertAll (hkeys.symm ▸ h) hnew, List.length_zipIdx]
    exact Nat.zero_add _

variable {m : BindMapping}

/-- The second part is behind the first one. -/
theorem Numbers.merge {m' : BindMapping} {keys' : List (List Char)} (h : Numbers m keys)
    (h' : Numbers m' keys') (hnodup : (keys ++ keys').Nodup) :
    Numbers (QueryPreparator.merge m m' keys.length) (keys ++ keys') := by
  let kvs : List (List Char × ℕ) := m'.entries.map fun e => (e.1, e.2 + keys.length)
  have hmerge : QueryPreparator.merge m m' keys.length = insertAll m kvs := by
    rw [QueryPreparator.merge, insertAll, List.foldl_map]
  have hmem : ∀ k v, (k, v) ∈ kvs ↔ ∃ w, keys'[w]? = some k ∧ v = w + keys.length := by
    intro k v
    rw [List.mem_map]
    constructor
    · rintro ⟨⟨k', w⟩, he, heq⟩
      obtain ⟨rfl, rfl⟩ := Prod.mk.inj heq
      exact ⟨w, (h'.lookup_iff k' w).mp (AList.mem_lookup_iff.mpr he), rfl⟩
    · rintro ⟨w, hw, rfl⟩
      exact ⟨⟨k, w⟩, AList.mem_lookup_iff.mp ((h'.lookup_iff k w).mpr hw), rfl⟩
  have hnodup' : (kvs.map Prod.fst).Nodup := by
    rw [List.map_map]
    exact m'.nodupKeys
  have hnew : ∀ kv ∈ kvs, m.lookup kv.1 = none := by
    intro kv hkv
    obtain ⟨w, hw, -⟩ := (hmem kv.1 kv.2).mp hkv
    cases hlookup : m.lookup kv.1 with
    | none => rfl
    | some v =>
      have hv := (h.lookup_iff kv.1 v).mp hlookup
      have hdisjoint := List.disjoint_of_nodup_append hnodup
      exact (hdisjoint (List.mem_of_getElem? hv) (List.mem_of_getElem? hw)).elim
  rw [hmerge]
  constructor
  · intro k v
    rw [lookup_insertAll hnodup' hnew, h.lookup_iff, hmem, List.getElem?_append]
    split
    · rename_i hlt
      refine or_iff_left ?_
      rintro ⟨w, -, rfl⟩
      omega
    · rename_i hge
      constructor
      · rintro (hv | ⟨w, hw, rfl⟩)
        · exact absurd (List.getElem?_eq_some_iff.mp hv).1 hge
        · rwa [Nat.add_sub_cancel]
      · intro hv
        exact .inr ⟨v - keys.length, hv, by omega⟩
  · rw [length_insertAll hnodup' hnew, h.length, List.length_map, h'.length, List.length_append]

theorem Numbers.lookup_eq_none (h : Numbers m keys)
    {k : List Char} (hk : k ∉ keys) : m.lookup k = none := by
  cases hlookup : m.lookup k with
  | none => rfl
  | some v => exact absurd (List.mem_of_getElem? ((h.lookup_iff k v).mp hlookup)) hk

theorem Numbers.paramCount (h : Numbers m keys)
    (hne : keys ≠ []) (query : List Char) : (Stmt.bound query m).paramCount = keys.length := by
  have hentries : m.entries ≠ [] := by
    intro hnil
    have hlength := h.length
    rw [hnil] at hlength
    exact hne (List.eq_nil_of_length_eq_zero hlength.symm)
  rw [Stmt.bound, if_neg hentries, h.length]

/-- The keys are the names. -/
theorem places_of_names (h : info.Columns) {columns : List (List Char)}
    (hmem : ∀ c ∈ columns, c ∈ info.names) (hnodup : columns.Nodup)
    (hm : Numbers m (columns.map (':' :: ·))) (query : List Char) :
    Places (Stmt.bound query m) info.names columns := by
  intro n hn
  have hkey : ∀ k, ':' :: k ∈ columns.map (':' :: ·) → k ∈ columns := by
    intro k hk
    obtain ⟨c, hc, heq⟩ := List.mem_map.mp hk
    exact (List.cons.inj heq).2 ▸ hc
  rw [Stmt.bindByName, Stmt.bound]
  dsimp only
  by_cases hcol : n ∈ columns
  · obtain ⟨i, hi⟩ := List.mem_iff_getElem?.mp hcol
    have hlookup : m.lookup (':' :: n) = some i := by
      rw [hm.lookup_iff, List.getElem?_map, hi]
      rfl
    rw [hlookup, positions_eq_singleton hnodup hi]
  · have hone : n ++ ['1'] ∉ columns := fun hc => (h.apart _ (hmem _ hc) n hn).1 rfl
    rw [hm.lookup_eq_none (mt (hkey n) hcol), List.cons_append,
      hm.lookup_eq_none (mt (hkey _) hone), positions_eq_nil hcol]

variable (p : QueryPreparator)

variable {c : List Char}

theorem mem_names_of_mem_columns (hc : c ∈ p.columns info) : c ∈ info.names :=
  (List.mem_filter.mp hc).1

theorem mem_fields : c ∈ p.fields info ↔ c ∈ p.columns info ∧ c ∉ p.unique := by
  rw [QueryPreparator.fields, List.mem_filter, decide_eq_true_iff]

theorem insertKey_of_mem {name : List Char} (h : name ∈ p.unique) :
    p.insertKey name = ':' :: name := if_neg (not_not.mpr h)

theorem insertKey_of_not_mem {name : List Char} (h : name ∉ p.unique) :
    p.insertKey name = ':' :: name ++ ['1'] := if_pos h

/-- The keys of two columns differ, also with their digits. -/
theorem insertKey_inj (h : info.Columns) {c' : List Char} (hc : c ∈ info.names)
    (hc' : c' ∈ info.names) (heq : p.insertKey c = p.insertKey c') : c = c' := by
  by_cases hu : c ∈ p.unique
  · rw [insertKey_of_mem p hu] at heq
    by_cases hu' : c' ∈ p.unique
    · rw [insertKey_of_mem p hu'] at heq
      exact (List.cons.inj heq).2
    · rw [insertKey_of_not_mem p hu'] at heq
      exact absurd (List.cons.inj heq).2 (h.apart c hc c' hc').1
  · rw [insertKey_of_not_mem p hu] at heq
    by_cases hu' : c' ∈ p.unique
    · rw [insertKey_of_mem p hu'] at heq
      exact absurd (List.cons.inj heq).2.symm (h.apart c' hc' c hc).1
    · rw [insertKey_of_not_mem p hu'] at heq
      exact (digit_inj (List.cons.inj heq).2).1

theorem insertKey_ne_two (h : info.Columns) {c' : List Char} (hc : c ∈ info.names)
    (hc' : c' ∈ info.names) : p.insertKey c ≠ ':' :: c' ++ ['2'] := by
  intro heq
  by_cases hu : c ∈ p.unique
  · rw [insertKey_of_mem p hu] at heq
    exact (h.apart c hc c' hc').2 (List.cons.inj heq).2
  · rw [insertKey_of_not_mem p hu] at heq
    exact absurd (digit_inj (List.cons.inj heq).2).2 (by decide)

/-- The keys of all marks of `prepareInsertOrUpdate`. -/
def insertKeys (info : TableInfo δ) : List (List Char) :=
  (p.columns info).map p.insertKey ++ (p.fields info).map fun name => ':' :: name ++ ['2']

theorem nodup_insertKeys (h : info.Columns) : (insertKeys p info).Nodup := by
  have hcolumns : (p.columns info).Nodup := h.distinct.filter _
  refine List.Nodup.append ?_ ?_ ?_
  · refine List.Nodup.map_on ?_ hcolumns
    intro c hc c' hc' heq
    exact insertKey_inj p h (mem_names_of_mem_columns p hc) (mem_names_of_mem_columns p hc') heq
  · refine List.Nodup.map ?_ (hcolumns.filter _)
    intro c c' heq
    exact (digit_inj (List.cons.inj heq).2).1
  · intro k hk hk'
    obtain ⟨c, hc, rfl⟩ := List.mem_map.mp hk
    obtain ⟨c', hc', heq⟩ := List.mem_map.mp hk'
    have hc' := ((mem_fields p).mp hc').1
    exact insertKey_ne_two p h (mem_names_of_mem_columns p hc) (mem_names_of_mem_columns p hc')
      heq.symm

/-- A name is the key of a column of its own, which is one of the key. -/
theorem name_mem_insertKeys (h : info.Columns) {n : List Char} (hn : n ∈ info.names)
    (hk : ':' :: n ∈ insertKeys p info) : n ∈ p.columns info ∧ n ∈ p.unique := by
  rcases List.mem_append.mp hk with hk | hk
  · obtain ⟨c, hc, heq⟩ := List.mem_map.mp hk
    by_cases hu : c ∈ p.unique
    · rw [insertKey_of_mem p hu] at heq
      obtain rfl := (List.cons.inj heq).2
      exact ⟨hc, hu⟩
    · rw [insertKey_of_not_mem p hu] at heq
      exact absurd (List.cons.inj heq).2.symm
        (h.apart n hn c (mem_names_of_mem_columns p hc)).1
  · obtain ⟨c, hc, heq⟩ := List.mem_map.mp hk
    have hc := ((mem_fields p).mp hc).1
    exact absurd (List.cons.inj heq).2.symm (h.apart n hn c (mem_names_of_mem_columns p hc)).2

theorem one_mem_insertKeys (h : info.Columns) {n : List Char} (hn : n ∈ info.names)
    (hk : ':' :: n ++ ['1'] ∈ insertKeys p info) : n ∈ p.columns info := by
  rcases List.mem_append.mp hk with hk | hk
  · obtain ⟨c, hc, heq⟩ := List.mem_map.mp hk
    by_cases hu : c ∈ p.unique
    · rw [insertKey_of_mem p hu] at heq
      exact absurd (List.cons.inj heq).2 (h.apart c (mem_names_of_mem_columns p hc) n hn).1
    · rw [insertKey_of_not_mem p hu] at heq
      exact (digit_inj (List.cons.inj heq).2).1 ▸ hc
  · obtain ⟨c, -, heq⟩ := List.mem_map.mp hk
    exact absurd (digit_inj (List.cons.inj heq).2).2 (by decide)

/-- The columns that are updated too have two keys. -/
theorem places_of_insertKeys (h : info.Columns)
    (hm : Numbers m (insertKeys p info)) (query : List Char) :
    Places (Stmt.bound query m) info.names (p.columns info ++ p.fields info) := by
  have hcolumns : (p.columns info).Nodup := h.distinct.filter _
  have hfields : (p.fields info).Nodup := hcolumns.filter _
  intro n hn
  rw [Stmt.bindByName, Stmt.bound, positions_append]
  dsimp only
  by_cases hcol : n ∈ p.columns info
  · obtain ⟨i, hi⟩ := List.mem_iff_getElem?.mp hcol
    have hkey : (insertKeys p info)[i]? = some (p.insertKey n) := by
      rw [insertKeys, List.getElem?_append_left, List.getElem?_map, hi]
      · rfl
      · rw [List.length_map]
        exact (List.getElem?_eq_some_iff.mp hi).1
    rw [positions_eq_singleton hcolumns hi]
    by_cases hu : n ∈ p.unique
    · rw [insertKey_of_mem p hu, ← hm.lookup_iff] at hkey
      rw [hkey, positions_eq_nil fun hf => ((mem_fields p).mp hf).2 hu]
      rfl
    · rw [insertKey_of_not_mem p hu, ← hm.lookup_iff] at hkey
      obtain ⟨j, hj⟩ := List.mem_iff_getElem?.mp ((mem_fields p).mpr ⟨hcol, hu⟩)
      have htwo : m.lookup (':' :: n ++ ['2']) = some (j + (p.columns info).length) := by
        rw [hm.lookup_iff, insertKeys, List.getElem?_append_right (by rw [List.length_map]; omega),
          List.length_map, Nat.add_sub_cancel, List.getElem?_map, hj]
        rfl
      rw [hm.lookup_eq_none fun hk => hu (name_mem_insertKeys p h hn hk).2, hkey, htwo,
        positions_eq_singleton hfields hj]
      rfl
  · rw [hm.lookup_eq_none fun hk => hcol (name_mem_insertKeys p h hn hk).1,
      hm.lookup_eq_none fun hk => hcol (one_mem_insertKeys p h hn hk), positions_eq_nil hcol,
      positions_eq_nil fun hf => hcol ((mem_fields p).mp hf).1]
    rfl

end Binding

/-! ## The statements -/

namespace QueryPreparator

variable {δ : Type} (p : QueryPreparator) {info : TableInfo δ}

theorem columns_plain (h : info.Plain) : ∀ n ∈ p.columns info, '?' ∉ n := by
  intro n hn
  exact h.names n (mem_names_of_mem_columns p hn)

/-- A field of an update has one mark. -/
theorem count_assign {n : List Char} (h : '?' ∉ n) : (assigned n).count '?' = 1 := by
  rw [assigned, List.count_append, List.count_eq_zero_of_not_mem h]
  rfl

/-- The columns and the marks of the values. -/
theorem chop_columns {sep : List Char} {n : ℕ} (hn : sep.length = n) {names : List (List Char)}
    (hne : names ≠ []) (query : List Char) :
    chop n (names.foldl (fun query name => query ++ name ++ sep) query) =
      query ++ sep.intercalate names := by
  have hchop := chop_flatMap id hn hne query
  rw [List.map_id] at hchop
  rw [foldl_text]
  exact hchop

/-- The text of a part, without its last separator. -/
theorem chop_marks (text key f : List Char → List Char) (sep : List Char) {n : ℕ}
    (htext : ∀ name, text name = f name ++ sep) (hn : sep.length = n) {names : List (List Char)}
    (hne : names ≠ []) (s : Part) :
    chop n (names.foldl (fun s name => s.mark (text name) (key name)) s).query =
      s.query ++ sep.intercalate (names.map f) := by
  rw [foldl_mark, funext htext]
  exact chop_flatMap f hn hne s.query

theorem assign_comma (name : List Char) :
    name ++ "=?,".toList = assigned name ++ ",".toList := by
  rw [assigned, List.append_assoc]
  rfl

theorem assign_and (name : List Char) :
    name ++ "=? AND ".toList = assigned name ++ " AND ".toList := by
  rw [assigned, List.append_assoc]
  rfl

theorem insertTurn_eq : insertTurn = fun s name => s.mark "?,".toList (':' :: name) := rfl

/-- One mark for each name of an assignment. -/
theorem count_assigns {sep : List Char} (hsep : '?' ∉ sep) {names : List (List Char)}
    (hplain : ∀ n ∈ names, '?' ∉ n) :
    (sep.intercalate (names.map assigned)).count '?' = names.length :=
  count_marks hsep fun n hn => count_assign (hplain n hn)

theorem count_insertText (h : info.Plain) (ignore : Bool) :
    (insertText ignore info.tableV2 (p.columns info)).count '?' = (p.columns info).length := by
  have htable := List.count_eq_zero_of_not_mem h.table
  have hnames := @count_names ", ".toList (by decide) _ (p.columns_plain h)
  have hmarks := @count_marks ",".toList (by decide) (fun _ => ['?']) (p.columns info)
    fun _ _ => rfl
  have hinsert :
      (if ignore then "INSERT IGNORE INTO " else "INSERT INTO ").toList.count '?' = 0 := by
    cases ignore <;> rfl
  have hopen : " (".toList.count '?' = 0 := rfl
  have hvalues : ") VALUES(".toList.count '?' = 0 := rfl
  have hclose : ")".toList.count '?' = 0 := rfl
  delta insertText
  simp only [List.count_append, htable, hnames, hmarks, hinsert, hopen, hvalues, hclose,
    Nat.zero_add, Nat.add_zero]

theorem count_insertOrUpdateText (h : info.Plain) :
    (insertOrUpdateText info.tableV2 (p.columns info) (p.fields info)).count '?' =
      (p.columns info ++ p.fields info).length := by
  have htable := List.count_eq_zero_of_not_mem h.table
  have hnames := @count_names ",".toList (by decide) _ (p.columns_plain h)
  have hmarks := @count_marks ",".toList (by decide) (fun _ => ['?']) (p.columns info)
    fun _ _ => rfl
  have hassigns := @count_assigns ",".toList (by decide) (p.fields info) fun n hn =>
    p.columns_plain h n ((mem_fields p).mp hn).1
  have hinsert : "INSERT INTO ".toList.count '?' = 0 := rfl
  have hopen : " (".toList.count '?' = 0 := rfl
  have hvalues : ") VALUES(".toList.count '?' = 0 := rfl
  have hclose : ") ".toList.count '?' = 0 := rfl
  have hupdate : " ON DUPLICATE KEY UPDATE ".toList.count '?' = 0 := rfl
  delta insertOrUpdateText
  simp only [List.count_append, htable, hnames, hmarks, hassigns, hinsert, hopen, hvalues, hclose,
    hupdate, List.length_append, Nat.zero_add, Nat.add_zero]

theorem count_updateText (h : info.Plain) :
    (updateText info.tableV2 (p.fields info) (p.keys info)).count '?' =
      (p.fields info ++ p.keys info).length := by
  have htable := List.count_eq_zero_of_not_mem h.table
  have hfields := @count_assigns ",".toList (by decide) (p.fields info) fun n hn =>
    p.columns_plain h n ((mem_fields p).mp hn).1
  have hkeys := @count_assigns " AND ".toList (by decide) (p.keys info) fun n hn =>
    p.columns_plain h n (List.mem_filter.mp hn).1
  have hupdate : "UPDATE ".toList.count '?' = 0 := rfl
  have hset : " SET ".toList.count '?' = 0 := rfl
  have hwhere : " WHERE ".toList.count '?' = 0 := rfl
  delta updateText
  simp only [List.count_append, htable, hfields, hkeys, hupdate, hset, hwhere, List.length_append,
    Nat.zero_add, Nat.add_zero]

theorem prepareInsert_spec (h : info.Columns) (hne : p.columns info ≠ []) (ignore : Bool) :
    ∃ s, p.prepareInsert (some info) ignore = .ok s ∧
      s.query = insertText ignore info.tableV2 (p.columns info) ∧
      s.BindsOnce info (p.columns info) := by
  have hnodup : (p.columns info).Nodup := h.distinct.filter _
  have hkeys : ((p.columns info).map (':' :: ·)).Nodup :=
    hnodup.map fun _ _ heq => (List.cons.inj heq).2
  refine ⟨Stmt.bound (insertText ignore info.tableV2 (p.columns info))
    (insertAll ∅ ((p.columns info).map (':' :: ·)).zipIdx), ?_, rfl, ?_⟩
  · have hmarks := @chop_marks (fun _ => "?,".toList) (':' :: ·) (fun _ => ['?']) ",".toList 1
      (fun _ => rfl) rfl _ hne
    rw [prepareInsert, insertTurn_eq, loop_eq, loop_eq, @chop_columns ", ".toList 2 rfl _ hne,
      hmarks, foldl_mark (fun _ => "?,".toList) (':' :: ·)]
    simp only [insertText, List.append_assoc]
  · refine bindsOnce_of_places h ?_ ?_ ?_ ?_
    · exact fun hplain => p.count_insertText hplain ignore
    · rw [(numbers_insertAll hkeys).paramCount (by simpa using hne), List.length_map]
    · exact fun c hc => mem_names_of_mem_columns p hc
    · exact places_of_names h (fun c hc => mem_names_of_mem_columns p hc) hnodup
        (numbers_insertAll hkeys) _

theorem prepareInsertOrUpdate_spec (h : info.Columns) (hne : p.fields info ≠ []) :
    ∃ s, p.prepareInsertOrUpdate (some info) = .ok s ∧
      s.query = insertOrUpdateText info.tableV2 (p.columns info) (p.fields info) ∧
      s.BindsOnce info (p.columns info ++ p.fields info) := by
  have hkeys := nodup_insertKeys p h
  have hfields : ∀ n ∈ p.fields info, n ∈ p.columns info := fun n hn => ((mem_fields p).mp hn).1
  have hcols : p.columns info ≠ [] := by
    obtain ⟨n, hn⟩ := List.exists_mem_of_ne_nil _ hne
    exact List.ne_nil_of_mem (hfields n hn)
  let first := (p.columns info).map p.insertKey
  let second := (p.fields info).map fun name => ':' :: name ++ ['2']
  have hlength : (p.columns info).length = first.length := (List.length_map _).symm
  have hm : Numbers (merge (insertAll ∅ first.zipIdx) (insertAll ∅ second.zipIdx) first.length)
      (insertKeys p info) :=
    (numbers_insertAll hkeys.of_append_left).merge (numbers_insertAll hkeys.of_append_right) hkeys
  refine ⟨Stmt.bound (insertOrUpdateText info.tableV2 (p.columns info) (p.fields info))
    (merge (insertAll ∅ first.zipIdx) (insertAll ∅ second.zipIdx) first.length), ?_, rfl, ?_⟩
  · have hmarks := @chop_marks (fun _ => "?,".toList) p.insertKey (fun _ => ['?']) ",".toList 1
      (fun _ => rfl) rfl _ hcols
    have hassigns := @chop_marks (fun name => name ++ "=?,".toList)
      (fun name => ':' :: name ++ ['2']) assigned ",".toList 1
      assign_comma rfl _ hne
    rw [prepareInsertOrUpdate, loop_eq, loop_eq, @chop_columns ",".toList 1 rfl _ hcols,
      foldl_insertOrUpdate, insertOrUpdateStmt, hmarks, ← fields, hassigns,
      foldl_mark (fun _ => "?,".toList) p.insertKey,
      foldl_mark (fun name => name ++ "=?,".toList) fun name => ':' :: name ++ ['2']]
    delta insertOrUpdateText
    simp only [List.append_assoc, hlength, Nat.zero_add, first, second]
  · refine bindsOnce_of_places h ?_ ?_ ?_ (places_of_insertKeys p h hm _)
    · exact p.count_insertOrUpdateText
    · have hkeysne : insertKeys p info ≠ [] := by
        intro hnil
        exact hcols (List.map_eq_nil_iff.mp (List.append_eq_nil_iff.mp hnil).1)
      rw [hm.paramCount hkeysne, insertKeys, List.length_append,
        List.length_append, List.length_map, List.length_map]
    · intro c hc
      rcases List.mem_append.mp hc with hc | hc
      · exact mem_names_of_mem_columns p hc
      · exact mem_names_of_mem_columns p (hfields c hc)

theorem prepareUpdate_spec (h : info.Columns) (hfields : p.fields info ≠ [])
    (hkeys : p.keys info ≠ []) :
    ∃ s, p.prepareUpdate (some info) = .ok s ∧
      s.query = updateText info.tableV2 (p.fields info) (p.keys info) ∧
      s.BindsOnce info (p.fields info ++ p.keys info) := by
  have hcolumns : (p.columns info).Nodup := h.distinct.filter _
  have hmem : ∀ n ∈ p.fields info ++ p.keys info, n ∈ info.names := by
    intro n hn
    rcases List.mem_append.mp hn with hn | hn
    · exact mem_names_of_mem_columns p (List.mem_filter.mp hn).1
    · exact mem_names_of_mem_columns p (List.mem_filter.mp hn).1
  have hnodup : (p.fields info ++ p.keys info).Nodup := by
    refine (hcolumns.filter _).append (hcolumns.filter _) ?_
    intro n hn hn'
    exact ((mem_fields p).mp hn).2 (of_decide_eq_true (List.mem_filter.mp hn').2)
  let first := (p.fields info).map (':' :: ·)
  let second := (p.keys info).map (':' :: ·)
  have hlength : (p.fields info).length = first.length := (List.length_map _).symm
  have hall : (first ++ second).Nodup := by
    rw [← List.map_append]
    exact hnodup.map fun _ _ heq => (List.cons.inj heq).2
  have hm : Numbers (merge (insertAll ∅ first.zipIdx) (insertAll ∅ second.zipIdx) first.length)
      ((p.fields info ++ p.keys info).map (':' :: ·)) := by
    rw [List.map_append]
    exact (numbers_insertAll hall.of_append_left).merge (numbers_insertAll hall.of_append_right)
      hall
  refine ⟨Stmt.bound (updateText info.tableV2 (p.fields info) (p.keys info))
    (merge (insertAll ∅ first.zipIdx) (insertAll ∅ second.zipIdx) first.length), ?_, rfl, ?_⟩
  · have hassigns := @chop_marks (fun name => name ++ "=?,".toList) (':' :: ·) assigned
      ",".toList 1 assign_comma rfl _ hfields
    have hwhere := @chop_marks (fun name => name ++ "=? AND ".toList) (':' :: ·) assigned
      " AND ".toList 5 assign_and rfl _ hkeys
    rw [prepareUpdate, loop_eq, foldl_update, updateStmt, ← fields, ← keys, hassigns, hwhere,
      foldl_mark (fun name => name ++ "=?,".toList) (':' :: ·),
      foldl_mark (fun name => name ++ "=? AND ".toList) (':' :: ·)]
    delta updateText
    simp only [List.append_assoc, hlength, Nat.zero_add, first, second]
  · refine bindsOnce_of_places h p.count_updateText ?_ hmem
      (places_of_names h hmem hnodup hm _)
    have hne : (p.fields info ++ p.keys info).map (':' :: ·) ≠ [] := by
      intro hnil
      exact hfields (List.append_eq_nil_iff.mp (List.map_eq_nil_iff.mp hnil)).1
    rw [hm.paramCount hne, List.length_map]

/-- A table with a member that has no name. -/
def flapping : TableInfo (BitVec 32) where
  name := "flapping"
  tableV2 := "flapping".toList
  mapping :=
    [⟨0, some "host_id".toList, .int id⟩, ⟨0, none, .int id⟩, ⟨0, some "type".toList, .uint id⟩,
      ⟨0, some "state".toList, .uint id⟩]

/-- One of its columns is left out. -/
def withoutType : QueryPreparator := ⟨1, ["type".toList], ["host_id".toList]⟩

end QueryPreparator

end CentreonBroker.Database
