import CentreonBroker.Rrd.Output

/-!
# One graph of the RRD output

What a run of the output does to the file of one graph and to what is put aside for it only
depends on the events of that graph: the other graphs have other files.
-/

namespace CentreonBroker.Rrd

/-! ## Files -/

/-- A folder, as the connector sets it: no path at all, or one that ends with a slash. -/
def Folder (path : List Char) : Prop := path = [] ∨ path.getLast? = some '/'

theorem folder_real_path_of (realpath : List Char → Option (List Char)) (path : List Char) :
    Folder (Connector.real_path_of realpath path) := by
  rw [Connector.real_path_of]
  split
  · exact Or.inr (List.getLast?_concat)
  · rename_i h
    by_cases hempty : (realpath path).getD path = []
    · exact Or.inl hempty
    · exact Or.inr (not_not.mp fun hlast => h ⟨hempty, hlast⟩)

/-- What follows a folder begins after the last slash. -/
theorem Folder.nil_of_append {p a : List Char} (h : Folder (p ++ a)) (ha : '/' ∉ a) : a = [] := by
  rcases List.eq_nil_or_concat a with hnil | ⟨a', c, rfl⟩
  · exact hnil
  · rcases h with hnil | hlast
    · simp at hnil
    · rw [List.concat_eq_append, ← List.append_assoc, List.getLast?_concat] at hlast
      obtain rfl := Option.some.inj hlast
      exact absurd (by simp) ha

theorem Folder.append_inj {p p' x x' : List Char} (hp : Folder p) (hp' : Folder p') (hx : '/' ∉ x)
    (hx' : '/' ∉ x') (h : p ++ x = p' ++ x') : p = p' ∧ x = x' := by
  rcases List.append_eq_append_iff.mp h with ⟨a, hpa, hxa⟩ | ⟨a, hpa, hxa⟩
  · have ha : a = [] := (hpa ▸ hp').nil_of_append fun hmem =>
      hx (hxa ▸ List.mem_append_left x' hmem)
    subst ha
    exact ⟨by simpa using hpa.symm, by simpa using hxa⟩
  · have ha : a = [] := (hpa ▸ hp).nil_of_append fun hmem =>
      hx' (hxa ▸ List.mem_append_left x hmem)
    subst ha
    exact ⟨by simpa using hpa, by simpa using hxa.symm⟩

/-- The end of a file name has no slash, and says which id it is. -/
theorem slash_notMem_name (id : ℕ) : '/' ∉ Decimal.digits id ++ ".rrd".toList := by
  intro h
  rcases List.mem_append.mp h with hdigit | hsuffix
  · exact absurd (Decimal.isDigit_of_mem_digits hdigit) (by decide)
  · exact absurd hsuffix (by decide)

/-- A graph: the one of a metric, or of the status of an index. -/
structure Graph where
  kind : Kind
  id : ℕ
  deriving DecidableEq

def Value.graph (v : Value) : Graph := ⟨v.kind, v.id⟩

def Rebuild.graph (e : Rebuild) : Graph := ⟨kindOf e.is_index, e.id⟩

def RemoveGraph.graph (e : RemoveGraph) : Graph := ⟨kindOf e.is_index, e.id⟩

namespace Output

/-- The file of a graph. -/
def fileOf (s : Output) (g : Graph) : List Char := s.file g.kind g.id

/-- Two graphs do not share a file. -/
def Separate (s : Output) : Prop := ∀ g g', s.fileOf g = s.fileOf g' → g = g'

theorem separate_of_folders {s : Output} (hfolder : ∀ kind, Folder (s.path kind))
    (hdistinct : s.path .metrics ≠ s.path .status) : s.Separate := by
  intro g g' h
  obtain ⟨hpath, hname⟩ := Folder.append_inj (hfolder g.kind) (hfolder g'.kind)
    (slash_notMem_name g.id) (slash_notMem_name g'.id) h
  have hid : g.id = g'.id := Decimal.digits_inj (List.append_cancel_right hname)
  have hkind : g.kind = g'.kind := by
    cases hk : g.kind <;> cases hk' : g'.kind
    · rfl
    · rw [hk, hk'] at hpath
      exact absurd hpath hdistinct
    · rw [hk, hk'] at hpath
      exact absurd hpath.symm hdistinct
    · rfl
  obtain ⟨kind, id⟩ := g
  obtain ⟨kind', id'⟩ := g'
  simp only at hid hkind
  rw [hid, hkind]

/-- The updates of the file of a graph, since it was created. -/
def updates (s : Output) (g : Graph) : List (ℤ × List Char) := s.backend.updates (s.fileOf g)

/-- What is put aside for a graph, when it is being rebuilt. -/
def pending (s : Output) (g : Graph) : Option (List Value) := s.rebuild g.kind (s.fileOf g)

end Output

/-! ## One graph on its own -/

/-- A graph: the updates of its file, and what is put aside. -/
structure Track where
  updates : List (ℤ × List Char)
  pending : Option (List Value)

namespace Track

variable (fixed : ℚ → List Char)

/-- A value of the graph is put aside in a rebuild, unless it is a value of the rebuild. -/
def take (v : Value) (t : Track) : Track :=
  match v.is_for_rebuild, t.pending with
  | false, some l => { t with pending := some (l ++ [v]) }
  | _, _ => { t with updates := t.updates ++ [v.update fixed] }

/-- What an event does to a graph, of a kind that is written or not. -/
def step (writes : Bool) (g : Graph) (t : Track) : Event → Track
  | .value v => if v.graph = g ∧ writes = true then t.take fixed v else t
  | .rebuild e =>
    if e.graph = g then
      if e.ends then ⟨t.updates ++ (t.pending.getD []).map (Value.update fixed), none⟩
      else ⟨[], some (t.pending.getD [])⟩
    else t
  | .remove_graph e => if e.graph = g then ⟨[], none⟩ else t
  | .other => t

end Track

namespace Output

variable {fixed : ℚ → List Char} {s : Output} {g : Graph}

/-- The graph in the output. -/
def track (s : Output) (g : Graph) : Track := ⟨s.updates g, s.pending g⟩

/-! ### The parts of a step -/

theorem fileOf_congr {s' : Output} (h : s'.path = s.path) (g : Graph) : s'.fileOf g = s.fileOf g := by
  simp only [fileOf, file, h]

theorem pending_setRebuild (hsep : s.Separate) (g' : Graph) (l : Option (List Value)) (g : Graph) :
    (s.setRebuild g'.kind (s.fileOf g') l).pending g = if g' = g then l else s.pending g := by
  have hfile : (s.setRebuild g'.kind (s.fileOf g') l).fileOf g = s.fileOf g := fileOf_congr rfl g
  show (s.setRebuild g'.kind (s.fileOf g') l).rebuild g.kind _ = _
  rw [hfile]
  show Function.update s.rebuild g'.kind (Function.update (s.rebuild g'.kind) (s.fileOf g') l)
    g.kind (s.fileOf g) = _
  by_cases hg : g' = g
  · subst hg
    rw [if_pos rfl, Function.update_self, Function.update_self]
  · rw [if_neg hg]
    by_cases hkind : g.kind = g'.kind
    · have hne : s.fileOf g ≠ s.fileOf g' := fun heq => hg (hsep g' g heq.symm)
      rw [hkind, Function.update_self, Function.update_of_ne hne, pending, hkind]
    · rw [Function.update_of_ne hkind, pending]

/-- A file that is opened or created, and then updated. -/
theorem updates_write (b : Backend) (path : List Char) (length from_time : ℤ) (step : ℕ)
    (value_type : Option ℤ) (time : ℤ) (value path' : List Char) :
    (((b.open_file path).getD (b.open_new path length from_time step value_type)).update time
        value).updates path' =
      if path = path' then b.updates path ++ [(time, value)] else b.updates path' := by
  by_cases hpath : path = path'
  · subst hpath
    rw [if_pos rfl]
    cases hfile : b.files path <;>
      simp [Backend.open_file, Backend.open_new, Backend.update, Backend.updates, hfile]
  · have hne : path' ≠ path := fun h => hpath h.symm
    rw [if_neg hpath]
    cases hfile : b.files path <;>
      simp [Backend.open_file, Backend.open_new, Backend.update, Backend.updates, hfile, hne]

theorem updates_remove (b : Backend) (path path' : List Char) :
    (b.remove path).updates path' = if path = path' then [] else b.updates path' := by
  by_cases hpath : path = path'
  · subst hpath
    simp [Backend.remove, Backend.updates]
  · have hne : path' ≠ path := fun h => hpath h.symm
    simp [Backend.remove, Backend.updates, hpath, hne]

/-- A file that is removed, with another list put aside for its graph. -/
theorem track_remove (hsep : s.Separate) (g' : Graph) (l : Option (List Value)) (g : Graph) :
    let s' := s.setRebuild g'.kind (s.fileOf g') l
    track { s' with backend := s'.backend.remove (s.fileOf g') } g =
      if g' = g then ⟨[], l⟩ else s.track g := by
  intro s'
  have hpending := pending_setRebuild hsep g' l g
  have hupdates : (s.backend.remove (s.fileOf g')).updates (s.fileOf g) =
      if g' = g then [] else s.updates g := by
    rw [updates_remove]
    exact if_congr ⟨hsep g' g, congrArg s.fileOf⟩ rfl rfl
  show Track.mk ((s.backend.remove (s.fileOf g')).updates (s.fileOf g)) (s'.pending g) = _
  rw [hpending, hupdates]
  split <;> rfl

/-! ### Values -/

variable (fixed) in
/-- A value does to its graph what it does to the graph on its own, and nothing to the others. -/
theorem track_write_value (hsep : s.Separate) {v : Value} (hwrites : s.writes v.kind = true) (g : Graph) :
    (s.write_value fixed v).track g = if v.graph = g then (s.track g).take fixed v else s.track g := by
  have hopen : ∀ b : Backend, b = ((s.backend.open_file (s.file v.kind v.id)).getD
        (s.backend.open_new (s.file v.kind v.id) v.rrd_len (v.ctime - 1) v.interval
          v.value_type)).update v.ctime (v.text fixed) →
      track { s with backend := b } g = if v.graph = g then
        ⟨s.updates g ++ [v.update fixed], s.pending g⟩ else s.track g := by
    rintro b rfl
    have hupdates := updates_write s.backend (s.fileOf v.graph) v.rrd_len (v.ctime - 1) v.interval
      v.value_type v.ctime (v.text fixed) (s.fileOf g)
    refine (congrArg (Track.mk · (s.pending g)) hupdates).trans ?_
    by_cases hg : v.graph = g
    · subst hg
      rw [if_pos rfl, if_pos rfl]
      rfl
    · rw [if_neg hg, if_neg fun h => hg (hsep _ _ h)]
      rfl
  have htake : ∀ r : Option (List Value), s.rebuild v.kind (s.file v.kind v.id) = r →
      s.pending v.graph = r := fun r h => h
  simp only [write_value, hwrites, if_true]
  cases hr : s.rebuild v.kind (s.file v.kind v.id) with
  | none =>
    have hpending := htake _ hr
    cases hflag : v.is_for_rebuild <;>
    · simp only
      rw [hopen _ rfl]
      refine ite_congr rfl (fun hg => ?_) fun _ => rfl
      subst hg
      simp only [Track.take, track, hpending, hflag]
  | some l =>
    have hpending := htake _ hr
    cases hflag : v.is_for_rebuild with
    | true =>
      simp only
      rw [hopen _ rfl]
      refine ite_congr rfl (fun hg => ?_) fun _ => rfl
      subst hg
      simp only [Track.take, track, hflag]
    | false =>
      simp only
      have hset := pending_setRebuild hsep v.graph (some (l ++ [v])) g
      refine (congrArg (Track.mk (s.updates g)) hset).trans ?_
      by_cases hg : v.graph = g
      · subst hg
        simp only [if_true, Track.take, track, hpending, hflag]
      · rw [if_neg hg, if_neg hg]
        rfl

/-! ### A step -/

/-- The configuration is not changed. -/
structure SameConfig (s s' : Output) : Prop where
  path : s'.path = s.path
  writes : s'.writes = s.writes

theorem SameConfig.trans {s₁ s₂ s₃ : Output} (h : SameConfig s₁ s₂) (h' : SameConfig s₂ s₃) :
    SameConfig s₁ s₃ :=
  ⟨h'.path.trans h.path, h'.writes.trans h.writes⟩

theorem SameConfig.separate {s s' : Output} (h : SameConfig s s') (hsep : s.Separate) :
    s'.Separate := by
  intro g g' heq
  rw [fileOf_congr h.path, fileOf_congr h.path] at heq
  exact hsep g g' heq

variable (fixed) in
theorem write_value_config (v : Value) (s : Output) : SameConfig s (s.write_value fixed v) := by
  simp only [write_value]
  split
  · split <;> exact ⟨rfl, rfl⟩
  · exact ⟨rfl, rfl⟩

theorem write_values_config (l : List Value) (s : Output) :
    SameConfig s (l.foldl (fun s v => s.write_value fixed v) s) := by
  induction l generalizing s with
  | nil => exact ⟨rfl, rfl⟩
  | cons v l ih => exact (write_value_config fixed v s).trans (ih _)

variable (fixed) in
theorem write_config (d : Option Event) (s : Output) : SameConfig s (s.write fixed d).2 := by
  cases d with
  | none => exact ⟨rfl, rfl⟩
  | some e =>
    cases e with
    | value v => exact write_value_config fixed v s
    | rebuild e =>
      rw [write]
      cases e.ends with
      | true =>
        have hset : SameConfig s (s.setRebuild (kindOf e.is_index) (s.file (kindOf e.is_index) e.id)
            none) := ⟨rfl, rfl⟩
        exact hset.trans (write_values_config _ _)
      | false => exact ⟨rfl, rfl⟩
    | remove_graph e => exact ⟨rfl, rfl⟩
    | other => exact ⟨rfl, rfl⟩

/-- The values of a graph that is not being rebuilt any more are all written. -/
theorem track_write_values (l : List Value) (s : Output) (hsep : s.Separate) {g' : Graph}
    (hl : ∀ v ∈ l, v.graph = g' ∧ v.is_for_rebuild = false ∧ s.writes g'.kind = true)
    (hpending : s.pending g' = none) (g : Graph) :
    (l.foldl (fun s v => s.write_value fixed v) s).track g =
      if g' = g then ⟨s.updates g ++ l.map (Value.update fixed), none⟩ else s.track g := by
  induction l generalizing s with
  | nil =>
    split
    · rename_i hg
      rw [List.map_nil, List.append_nil, ← hg, ← hpending]
      rfl
    · rfl
  | cons v l ih =>
    obtain ⟨rfl, hlive, hwrites⟩ := hl v List.mem_cons_self
    have hfirst := fun g => track_write_value fixed hsep hwrites g
    have hconfig := write_value_config fixed v s
    have hself := hfirst v.graph
    simp only [if_true, Track.take, track, hlive, hpending, Track.mk.injEq] at hself
    rw [List.foldl_cons, ih _ (hconfig.separate hsep) (fun v' hv' => ?_) hself.2]
    · by_cases hg : v.graph = g
      · subst hg
        rw [if_pos rfl, if_pos rfl, hself.1, List.map_cons, List.append_assoc]
        rfl
      · rw [if_neg hg, if_neg hg, hfirst, if_neg hg]
    · rw [hconfig.writes]
      exact hl v' (List.mem_cons_of_mem v hv')

end Output

/-- What is put aside for a graph are live values of it, if it is written at all. -/
def Track.Sorted (writes : Bool) (g : Graph) (t : Track) : Prop :=
  ∀ l, t.pending = some l → ∀ v ∈ l, v.graph = g ∧ v.is_for_rebuild = false ∧ writes = true

theorem Track.Sorted.step {fixed : ℚ → List Char} {writes : Bool} {g : Graph} {t : Track}
    (h : t.Sorted writes g) (e : Event) : (t.step fixed writes g e).Sorted writes g := by
  have hkept : ∀ v ∈ t.pending.getD [], v.graph = g ∧ v.is_for_rebuild = false ∧ writes = true := by
    cases hpending : t.pending with
    | none => exact List.forall_mem_nil _
    | some l => exact h l hpending
  cases e with
  | value v =>
    simp only [Track.step]
    split
    · rename_i hv
      rw [take]
      split
      · rename_i l hlive hpending
        rintro l' hl' v' hv'
        obtain rfl := Option.some.inj hl'
        rcases List.mem_append.mp hv' with hold | hnew
        · exact h l hpending v' hold
        · obtain rfl := List.mem_singleton.mp hnew
          exact ⟨hv.1, hlive, hv.2⟩
      · exact h
    · exact h
  | rebuild e =>
    simp only [Track.step]
    split
    · split
      · rintro l hl
        cases hl
      · rintro l hl
        obtain rfl := Option.some.inj hl
        exact hkept
    · exact h
  | remove_graph e =>
    simp only [Track.step]
    split
    · rintro l hl
      cases hl
    · exact h
  | other => exact h

namespace Output

variable {fixed : ℚ → List Char} {s : Output}

/-- Two graphs do not share a file, and what is put aside is where it belongs. -/
structure Sound (s : Output) : Prop where
  separate : s.Separate
  sorted : ∀ g, (s.track g).Sorted (s.writes g.kind) g

theorem track_end_rebuild (h : s.Sound) (e : Rebuild) (g : Graph) :
    (s.end_rebuild fixed e).track g = if e.graph = g then
      ⟨s.updates g ++ ((s.pending g).getD []).map (Value.update fixed), none⟩ else s.track g := by
  have hset := pending_setRebuild h.separate e.graph none
  have hnone := hset e.graph
  rw [if_pos rfl] at hnone
  have hl : ∀ v ∈ (s.pending e.graph).getD [],
      v.graph = e.graph ∧ v.is_for_rebuild = false ∧ s.writes e.graph.kind = true := by
    cases hpending : s.pending e.graph with
    | none => exact List.forall_mem_nil _
    | some l => exact h.sorted e.graph l hpending
  have hconfig : SameConfig s (s.setRebuild e.graph.kind (s.fileOf e.graph) none) := ⟨rfl, rfl⟩
  refine (track_write_values ((s.pending e.graph).getD [])
    (s.setRebuild e.graph.kind (s.fileOf e.graph) none) (hconfig.separate h.separate) hl hnone
    g).trans ?_
  · by_cases hg : e.graph = g
    · subst hg
      rw [if_pos rfl, if_pos rfl]
      rfl
    · rw [if_neg hg, if_neg hg]
      have hother := hset g
      rw [if_neg hg] at hother
      exact congrArg (Track.mk (s.updates g)) hother

variable (fixed) in
/-- **A step of the output is a step of each graph.** -/
theorem track_write (h : s.Sound) (e : Event) (g : Graph) :
    (s.write fixed (some e)).2.track g = (s.track g).step fixed (s.writes g.kind) g e := by
  cases e with
  | value v =>
    simp only [write, Track.step]
    cases hwrites : s.writes v.kind with
    | true =>
      rw [track_write_value fixed h.separate hwrites]
      refine if_congr ⟨fun hg => ⟨hg, ?_⟩, fun hg => hg.1⟩ rfl rfl
      rw [← hg]
      exact hwrites
    | false =>
      have hsame : s.write_value fixed v = s := by rw [write_value, hwrites, if_neg Bool.false_ne_true]
      rw [hsame, if_neg]
      rintro ⟨rfl, htrue⟩
      exact Bool.false_ne_true (hwrites.symm.trans htrue)
  | rebuild e =>
    simp only [write, Track.step]
    cases e.ends with
    | true => exact track_end_rebuild h e g
    | false =>
      refine (track_remove h.separate e.graph _ g).trans (ite_congr rfl (fun hg => ?_) fun _ => rfl)
      subst hg
      rfl
  | remove_graph e => exact track_remove h.separate e.graph none g
  | other => rfl

variable (fixed) in
theorem Sound.write (h : s.Sound) (d : Option Event) : (s.write fixed d).2.Sound := by
  have hconfig := write_config fixed d s
  refine ⟨hconfig.separate h.separate, fun g => ?_⟩
  rw [hconfig.writes]
  cases d with
  | none => exact h.sorted g
  | some e =>
    rw [track_write fixed h]
    exact (h.sorted g).step e

/-- **A run of the output is a run of each graph.** -/
theorem track_run (h : s.Sound) (es : List (Option Event)) (g : Graph) :
    (s.run fixed es).track g =
      es.reduceOption.foldl (Track.step fixed (s.writes g.kind) g) (s.track g) := by
  induction es generalizing s with
  | nil => rfl
  | cons d es ih =>
    have hrest := ih (h.write fixed d)
    rw [(write_config fixed d s).writes] at hrest
    rw [run, List.foldl_cons, ← run, hrest]
    cases d with
    | none => rfl
    | some e => rw [track_write fixed h, List.reduceOption_cons_of_some, List.foldl_cons]

theorem run_writes (es : List (Option Event)) (s : Output) : (s.run fixed es).writes = s.writes := by
  induction es generalizing s with
  | nil => rfl
  | cons d es ih => exact (ih _).trans (write_config fixed d s).writes

theorem Sound.run (h : s.Sound) (es : List (Option Event)) : (s.run fixed es).Sound := by
  induction es generalizing s with
  | nil => exact h
  | cons d es ih => exact ih (h.write fixed d)

end Output

end CentreonBroker.Rrd
