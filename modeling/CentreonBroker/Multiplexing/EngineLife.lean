import CentreonBroker.Multiplexing.Engine

/-!
# The life of the engine

What the engine is for, as a ledger: the events that were published, how many of them
were sent, and for each subscriber how many had been when it came. It has the events that
were sent since, each once and in order.

The engine keeps to it as long as what a stop left behind is not used twice: the cache
that `start` read is not cleared, and the transaction that `stop` began goes on after a
`start`.
-/

namespace CentreonBroker.Multiplexing.Engine

open PersistentCache

variable {α : Type} [EventCodec α]

/-- A subscriber that never fails, with the events it was given. -/
def keep (e : α) (m : List α) : Bool × List α := (false, m ++ [e])

/-! ## Sending and publishing -/

omit [EventCodec α] in
theorem sendToAll_keep (e : α) (ms : List (List α)) :
    sendToAll keep e ms = (false, ms.map (· ++ [e])) := by
  induction ms with
  | nil => rfl
  | cons m ms ih =>
    rw [sendToAll, ih]
    rfl

omit [EventCodec α] in
theorem sendToSubscribers_keep (kiew : List α) (ms : List (List α)) :
    sendToSubscribers keep kiew ms = (false, [], ms.map (· ++ kiew)) := by
  induction kiew generalizing ms with
  | nil => simp [sendToSubscribers]
  | cons e kiew ih =>
    rw [sendToSubscribers, sendToAll_keep]
    dsimp only
    rw [ih, List.map_map]
    simp [Function.comp_def]

omit [EventCodec α] in
theorem send_keep (g : Engine α (List α)) :
    send keep g = (false, { g with kiew := [], muxers := g.muxers.map (· ++ g.kiew) }) := by
  rw [send, sendToSubscribers_keep]

variable {g : Engine α (List α)}

/-- A running engine sends what is published. -/
theorem publish_write (hw : g.write_func = .write) (hk : g.kiew = [])
    (es : List α) :
    publish keep es g = (false, { g with muxers := g.muxers.map (· ++ es) }) := by
  induction es generalizing g with
  | nil => simp [publish]
  | cons e es ih =>
    have h1 : publishOne keep e g = (false, { g with muxers := g.muxers.map (· ++ [e]) }) := by
      rw [publishOne]
      dsimp only
      rw [hw, hk]
      dsimp only
      rw [send_keep, List.nil_append, ← hk, ← hw]
    rw [publish, h1]
    dsimp only
    rw [ih (g := { g with muxers := g.muxers.map (· ++ [e]) }) hw hk, List.map_map]
    simp [Function.comp_def]

/-- What publishing in a stopped engine leaves of its transaction. -/
def SameFiles (c c' : Cache α) : Prop :=
  c'.read_file = c.read_file ∧ (c.write_file.isSome → c'.write_file.isSome)

omit [EventCodec α] in
theorem SameFiles.trans {c₁ c₂ c₃ : Cache α} (h : SameFiles c₁ c₂) (h' : SameFiles c₂ c₃) :
    SameFiles c₁ c₃ := ⟨h'.1.trans h.1, fun hw => h'.2 (h.2 hw)⟩

theorem add_sameFiles (e : α) (c : Cache α) : SameFiles c ((add e c).getD c) := by
  cases hw : c.write_file with
  | none =>
    rw [add, hw]
    exact ⟨rfl, id⟩
  | some w =>
    rw [add, hw]
    exact ⟨rfl, fun _ => rfl⟩

/-- An engine that does not run keeps what is published, and sends nothing. -/
theorem publish_kept (hw : g.write_func ≠ .write) (es : List α) :
    ∃ cache_file, publish keep es g =
        (false, { g with kiew := g.kiew ++ es, cache_file := cache_file }) ∧
      (g.cache_file = none → cache_file = none) ∧
      ∀ c', cache_file = some c' → ∃ c, g.cache_file = some c ∧ SameFiles c c' := by
  induction es generalizing g with
  | nil =>
    refine ⟨g.cache_file, by simp [publish], id, fun c hc => ⟨c, hc, rfl, id⟩⟩
  | cons e es ih =>
    obtain ⟨g', h1, hkiew, hmuxers, hfunc, hnone, hsome⟩ : ∃ g', publishOne keep e g = (false, g') ∧
        g'.kiew = g.kiew ++ [e] ∧ g'.muxers = g.muxers ∧ g'.write_func = g.write_func ∧
        (g.cache_file = none → g'.cache_file = none) ∧
        ∀ c', g'.cache_file = some c' → ∃ c, g.cache_file = some c ∧ SameFiles c c' := by
      rw [publishOne]
      dsimp only
      cases hf : g.write_func with
      | nop => exact ⟨_, rfl, rfl, rfl, rfl, id, fun c hc => ⟨c, hc, rfl, id⟩⟩
      | write => exact absurd hf hw
      | writeToCacheFile =>
        refine ⟨_, rfl, rfl, rfl, rfl, fun hn => ?_, fun c' hc' => ?_⟩
        · show g.cache_file.map _ = none
          rw [hn]
          rfl
        · obtain ⟨c, hc, rfl⟩ := Option.map_eq_some_iff.mp hc'
          exact ⟨c, hc, add_sameFiles e c⟩
    obtain ⟨cache_file, h2, hnone', hsome'⟩ := ih (g := g') (hfunc ▸ hw)
    refine ⟨cache_file, ?_, fun hn => hnone' (hnone hn), fun c' hc' => ?_⟩
    · rw [publish, h1]
      dsimp only
      rw [h2, hkiew, hmuxers, hfunc, List.append_assoc]
      rfl
    · obtain ⟨c₁, hc₁, hs₁⟩ := hsome' c' hc'
      obtain ⟨c, hc, hs⟩ := hsome c₁ hc₁
      exact ⟨c, hc, hs.trans hs₁⟩

/-! ## The ledger -/

/-- What the engine is for. -/
structure Ledger (α : Type) where
  /-- What was published, with what the processes before left first. -/
  published : List α
  /-- How much of it was sent. -/
  sent : Nat
  running : Bool
  /-- For each subscriber, what it had when it came and how much had been sent. -/
  joined : Option (List (List α × Nat))

/-- One call. Only a running engine sends what is published; the others wait for a start. -/
def Ledger.step (l : Ledger α) : EngineOp α (List α) → Ledger α
  | .load => { l with joined := some (l.joined.getD []) }
  | .unload => { l with running := false, joined := none }
  | .start =>
    if l.joined.isSome then { l with sent := l.published.length, running := true } else l
  | .stop => { l with running := false }
  | .publish es =>
    if l.joined.isSome then
      { l with
        published := l.published ++ es
        sent := if l.running then (l.published ++ es).length else l.sent }
    else l
  | .subscribe m => { l with joined := l.joined.map (· ++ [(m, l.sent)]) }

def Ledger.run (ops : List (EngineOp α (List α))) (l : Ledger α) : Ledger α :=
  ops.foldl Ledger.step l

/-- What a subscriber should have: what was sent since it came. -/
def Ledger.received (l : Ledger α) (m : List α × Nat) : List α :=
  m.1 ++ (l.published.take l.sent).drop m.2

/-- What a start should send. -/
def Ledger.waiting (l : Ledger α) : List α := l.published.drop l.sent

/-! ## What the instance has, and what it should have -/

/-- The instance has begun a transaction. -/
structure Writing (fs : Files Name) (c : Cache α) : Prop where
  readable : Readable fs c
  writes : c.write_file.isSome
  new : (fs .new).isSome

/-- The events of the transaction of an instance. -/
def written (fs : Files Name) (c : Cache α) : List α :=
  events ((fs .new).getD [] ++ c.write_file.getD [])

structure Live (fs : Files Name) (g : Engine α (List α)) (l : Ledger α) : Prop where
  running : l.running = decide (g.write_func = .write)
  cache : ∀ c, g.cache_file = some c → Writing fs c
  nop : g.write_func = .nop → g.cache_file = none ∧ stored fs ++ g.kiew = l.waiting
  stopped : g.write_func = .writeToCacheFile → g.kiew = l.waiting
  write : g.write_func = .write → g.kiew = [] ∧ l.sent = l.published.length
  muxers : l.joined.map (List.map l.received) = some g.muxers
  joined : ∀ ms, l.joined = some ms → ∀ m ∈ ms, m.2 ≤ l.sent

/-- The process keeps to the ledger. -/
structure Keeps (p : Process α (List α)) (l : Ledger α) : Prop where
  sent : l.sent ≤ l.published.length
  unloaded : p.instance_ = none →
    l.joined = none ∧ l.running = false ∧ stored p.fs = l.waiting
  loaded : ∀ g, p.instance_ = some g → Live p.fs g l

/--
What a stop left behind is not used twice. A start after a stop finds nothing in the cache;
a stop is not repeated with events waiting; and the transaction that an unload commits has
the events that wait, or, when no stop began one, nothing waits and nothing is in a cache
that a start has read.
-/
def Sound (op : EngineOp α (List α)) (p : Process α (List α)) : Prop :=
  ∀ g, p.instance_ = some g →
    (op = .start → g.write_func = .writeToCacheFile → (stored p.fs : List α) = []) ∧
    (op = .stop → g.write_func = .writeToCacheFile → g.kiew = []) ∧
    (op = .unload →
      (∀ c, g.cache_file = some c → written p.fs c = g.kiew) ∧
      (g.cache_file = none → g.kiew = [] ∧ (g.write_func ≠ .nop → (stored p.fs : List α) = [])))

/-! ## One call -/

variable {l : Ledger α}

omit [EventCodec α] in
/-- A subscriber that was there gets what is sent. -/
theorem received_append {l' : Ledger α} {m : List α × Nat} {new : List α}
    (hs : l.sent ≤ l.published.length) (hm : m.2 ≤ l.sent)
    (h : l'.published.take l'.sent = l.published.take l.sent ++ new) :
    l'.received m = l.received m ++ new := by
  have hlen : m.2 ≤ (l.published.take l.sent).length := by rw [List.length_take]; omega
  rw [Ledger.received, h, List.drop_append_of_le_length hlen, Ledger.received, List.append_assoc]

variable {fs : Files Name}

omit [EventCodec α] in
theorem Live.received {l' : Ledger α} {new : List α}
    [EventCodec α] (h : Live fs g l) (hs : l.sent ≤ l.published.length) (hj : l'.joined = l.joined)
    (hnew : l'.published.take l'.sent = l.published.take l.sent ++ new) :
    l'.joined.map (List.map l'.received) = some (g.muxers.map (· ++ new)) := by
  rw [hj]
  cases hjoined : l.joined with
  | none =>
    have hm := h.muxers
    rw [hjoined] at hm
    cases hm
  | some ms =>
    have hm := h.muxers
    rw [hjoined, Option.map_some] at hm
    rw [Option.map_some, ← Option.some.inj hm, List.map_map]
    congr 1
    exact List.map_congr_left fun m hmem => received_append hs (h.joined ms hjoined m hmem) hnew

omit [EventCodec α] in
theorem map_append_nil (ms : List (List α)) : ms.map (· ++ []) = ms := by
  simp

theorem Live.joined_isSome
    (h : Live fs g l) : l.joined.isSome := by
  have hm := h.muxers
  cases hj : l.joined with
  | none => rw [hj] at hm; cases hm
  | some ms => rfl

omit [EventCodec α] in
theorem Writing.sameFiles {c c' : Cache α} (h : Writing fs c)
    (hs : SameFiles c c') : Writing fs c' := by
  obtain ⟨⟨b, hb, hr⟩, hw, hn⟩ := h
  exact ⟨⟨b, hb, fun r h => hr r (hs.1 ▸ h)⟩, hs.2 hw, hn⟩

theorem publish_live (h : Live fs g l)
    (hs : l.sent ≤ l.published.length) (es : List α) :
    Live fs (publish keep es g).2 (l.step (.publish es)) := by
  have hstep : l.step (.publish es) =
      { l with
        published := l.published ++ es
        sent := if l.running then (l.published ++ es).length else l.sent } :=
    if_pos h.joined_isSome
  rw [hstep]
  by_cases hw : g.write_func = .write
  · obtain ⟨hk, hsent⟩ := h.write hw
    have hrun : l.running = true := by rw [h.running, hw]; rfl
    rw [publish_write hw hk]
    refine ⟨h.running, h.cache, fun hn => ?_, fun hn => ?_, fun _ => ⟨hk, ?_⟩, ?_, ?_⟩
    · rw [hw] at hn; cases hn
    · rw [hw] at hn; cases hn
    · rw [hrun]; rfl
    · refine h.received hs rfl ?_
      rw [hrun, if_pos rfl, List.take_length, hsent, List.take_length]
    · intro ms hms m hm
      refine (h.joined ms hms m hm).trans ?_
      rw [hrun, if_pos rfl, List.length_append, hsent]
      exact Nat.le_add_right _ _
  · have hrun : l.running = false := by rw [h.running]; exact decide_eq_false hw
    obtain ⟨cache_file, hp, hnone, hsome⟩ := publish_kept hw es
    have hwait : (l.published ++ es).drop l.sent = l.waiting ++ es :=
      List.drop_append_of_le_length hs
    rw [hp, hrun, if_neg Bool.false_ne_true]
    refine ⟨(decide_eq_false hw).symm, fun c' hc' => ?_, fun hn => ?_, fun hn => ?_, fun hn => ?_, ?_,
      h.joined⟩
    · obtain ⟨c, hc, hsame⟩ := hsome c' hc'
      exact (h.cache c hc).sameFiles hsame
    · obtain ⟨hc, hst⟩ := h.nop hn
      refine ⟨hnone hc, ?_⟩
      rw [Ledger.waiting, hwait, ← hst, List.append_assoc]
    · rw [Ledger.waiting, hwait, ← h.stopped hn]
    · exact absurd hn hw
    · show _ = some g.muxers
      rw [← map_append_nil g.muxers]
      refine h.received hs rfl ?_
      rw [List.append_nil]
      exact List.take_append_of_le_length hs

/-- Reading the cache leaves the transaction of the instance as it is. -/
theorem Writing.readCache {c : Cache α} (h : Writing fs c) :
    Writing (readCache (α := α) fs).2 c := by
  obtain ⟨⟨b, hb, hr⟩, hw, hn⟩ := h
  have hread : (Engine.readCache (α := α) fs).2 =
      fs.append .cache (if b.length < File.partHeaderSize then File.partHeader else []) := by
    rw [Engine.readCache, openRead_of_cache hb]
  rw [hread]
  refine ⟨⟨b ++ _, by rw [Files.append_self, hb]; rfl, fun r hc => ?_⟩, hw, ?_⟩
  · rcases hr r hc with hnil | ⟨h1, h2⟩
    · exact .inl hnil
    · -- the header is added to what is short of it
      refine .inr ⟨?_, h2⟩
      rw [List.length_append]
      split
      · rename_i hlt
        have hlen : File.partHeader.length = 8 := rfl
        rw [File.partHeaderSize] at hlt
        omega
      · exact h1
  · rw [Files.append_of_ne _ (by decide)]
    exact hn

theorem readCache_fst (fs : Files Name) : (readCache fs).1 = (stored fs : List α) :=
  (openRead_spec fs).1

theorem start_live (h : Live fs g l)
    (hs : l.sent ≤ l.published.length)
    (hsound : g.write_func = .writeToCacheFile → (stored fs : List α) = []) :
    Live (start keep g fs).2.2 (start keep g fs).2.1 (l.step .start) := by
  have hstep : l.step .start = { l with sent := l.published.length, running := true } :=
    if_pos h.joined_isSome
  rw [hstep]
  by_cases hw : g.write_func = .write
  · have hstart : start keep g fs = (false, g, fs) := if_pos hw
    obtain ⟨hk, hsent⟩ := h.write hw
    have hrun : l.running = true := by rw [h.running, hw]; rfl
    have hl : { l with sent := l.published.length, running := true } = l := by
      rw [← hsent, ← hrun]
    rw [hstart, hl]
    exact h
  · -- what is sent is what should be
    have hwait : stored fs ++ g.kiew = l.waiting := by
      cases hf : g.write_func with
      | nop => exact (h.nop hf).2
      | writeToCacheFile => rw [hsound hf, List.nil_append]; exact h.stopped hf
      | write => exact absurd hf hw
    have hstart : start keep g fs =
        (false, { g with write_func := .write, kiew := [], muxers := g.muxers.map (· ++ l.waiting) },
          (readCache (α := α) fs).2) := by
      rw [start, if_neg hw]
      dsimp only
      rw [readCache_fst, hwait, publish_write rfl rfl]
    rw [hstart]
    refine ⟨rfl, fun c hc => (h.cache c hc).readCache, nofun, nofun, fun _ => ⟨rfl, rfl⟩, ?_, ?_⟩
    · refine h.received hs rfl ?_
      rw [List.take_length]
      exact (List.take_append_drop _ _).symm
    · intro ms hms m hm
      exact (h.joined ms hms m hm).trans hs

/-- A stop begins a transaction, after what the one before it left in its file. -/
theorem stop_cache {cache_file : Option (Cache α)}
    (h : ∀ c, cache_file = some c → Writing fs c) :
    ∃ c fs', transaction ⟨some (openRead (α := α) fs).1, none⟩
        (closeCache cache_file (openRead (α := α) fs).2) = some (c, fs') ∧ Writing fs' c := by
  refine ⟨_, _, transaction_eq rfl _, ?_, rfl, ?_⟩
  · cases cache_file with
    | none =>
      obtain ⟨-, -, -, b, hb, hs⟩ := openRead_spec (α := α) fs
      refine ⟨b, (Files.create_of_ne _ (by decide)).trans hb, fun r hr => ?_⟩
      cases hr
      exact hs
    | some c =>
      -- the file that is read was closed by the cache before, with its header if it was short
      obtain ⟨⟨b, hb, hr⟩, -, -⟩ := h c rfl
      rw [openRead_of_cache hb]
      have hwrite : closeWrite c fs .cache = some b := (flush_of_ne (by decide) _ _).trans hb
      obtain ⟨b', hb', hshort⟩ : ∃ b', closeRead c (closeWrite c fs) .cache = some b' ∧
          (b.length < File.partHeaderSize → b'.length ≤ 15) := by
        cases hc : c.read_file with
        | none =>
          refine ⟨b, ?_, fun hlt => ?_⟩
          · rw [closeRead, hc]
            exact hwrite
          · rw [File.partHeaderSize] at hlt
            omega
        | some r =>
          refine ⟨b ++ r.1, ?_, fun hlt => ?_⟩
          · rw [closeRead, hc]
            exact (Files.append_self _ _ _).trans (by rw [hwrite]; rfl)
          · rw [File.partHeaderSize] at hlt
            rcases hr r hc with hnil | ⟨-, h2⟩
            · rw [hnil, List.append_nil]
              omega
            · rw [List.length_append]
              omega
      refine ⟨b', (Files.create_of_ne _ (by decide)).trans hb', fun r hr => ?_⟩
      cases hr
      dsimp only
      split
      · rename_i hlt
        exact .inr ⟨hshort hlt, Nat.le_refl 8⟩
      · exact .inl rfl
  · rw [Files.create_self]
    rfl

theorem stop_live (h : Live fs g l)
    (hsound : g.write_func = .writeToCacheFile → g.kiew = []) :
    Live (stop keep g fs).2.2 (stop keep g fs).2.1 (l.step .stop) := by
  by_cases hw : g.write_func = .nop
  · have hstop : stop keep g fs = (false, g, fs) := if_pos hw
    have hl : l.step .stop = l := by
      have hrun : l.running = false := by rw [h.running, hw]; rfl
      rw [Ledger.step, ← hrun]
    rw [hstop, hl]
    exact h
  · -- nothing is sent
    have hk : g.kiew = [] ∧ l.waiting = [] := by
      cases hf : g.write_func with
      | nop => exact absurd hf hw
      | writeToCacheFile => exact ⟨hsound hf, by rw [← h.stopped hf, hsound hf]⟩
      | write =>
        obtain ⟨h1, h2⟩ := h.write hf
        exact ⟨h1, by rw [Ledger.waiting, h2, List.drop_length]⟩
    obtain ⟨c, fs', ht, hwriting⟩ := stop_cache h.cache
    have hstop : stop keep g fs =
        (false, { g with kiew := [], write_func := .writeToCacheFile, cache_file := some c }, fs') := by
      rw [stop, if_neg hw, send_keep, hk.1, map_append_nil]
      dsimp only
      rw [ht]
    rw [hstop]
    refine ⟨rfl, fun c' hc' => ?_, nofun, fun _ => hk.2.symm, nofun, h.muxers, h.joined⟩
    cases hc'
    exact hwriting

theorem subscribe_live (h : Live fs g l)
    (m : List α) :
    Live fs { g with muxers := g.muxers ++ [m] } (l.step (.subscribe m)) := by
  obtain ⟨ms, hms⟩ := Option.isSome_iff_exists.mp h.joined_isSome
  have hmux := h.muxers
  rw [hms, Option.map_some] at hmux
  refine ⟨h.running, h.cache, h.nop, h.stopped, h.write, ?_, fun ms' hms' m' hm' => ?_⟩
  · show (l.joined.map _).map _ = _
    rw [hms, Option.map_some, Option.map_some, List.map_append, List.map_singleton,
      ← Option.some.inj hmux]
    have hnew : l.received (m, l.sent) = m := by
      rw [Ledger.received, List.drop_eq_nil_of_le (List.length_take_le _ _), List.append_nil]
    exact congrArg (fun x => some (ms.map l.received ++ [x])) hnew
  · have hms'' : some (ms ++ [(m, l.sent)]) = some ms' := by
      rw [← hms']
      show _ = l.joined.map _
      rw [hms, Option.map_some]
    rw [← Option.some.inj hms''] at hm'
    rcases List.mem_append.mp hm' with hm' | hm'
    · exact h.joined ms hms m' hm'
    · rw [List.mem_singleton.mp hm']
      exact Nat.le_refl _

theorem unload_keeps (h : Live fs g l)
    (hfile : ∀ c, g.cache_file = some c → written fs c = g.kiew)
    (hnone : g.cache_file = none → g.kiew = [] ∧ (g.write_func ≠ .nop → (stored fs : List α) = [])) :
    (unload g fs).1 = none ∧ stored (unload g fs).2 = l.waiting := by
  -- what waits is in `_kiew`, unless the instance was never started
  have hwait : g.write_func ≠ .nop → g.kiew = l.waiting := by
    intro hw
    cases hf : g.write_func with
    | nop => exact absurd hf hw
    | writeToCacheFile => exact h.stopped hf
    | write =>
      obtain ⟨h1, h2⟩ := h.write hf
      rw [h1, Ledger.waiting, h2, List.drop_length]
  cases hc : g.cache_file with
  | none =>
    obtain ⟨hk, hst⟩ := hnone hc
    have hunload : unload g fs = (none, fs) := by rw [unload, hc]
    rw [hunload]
    refine ⟨rfl, ?_⟩
    by_cases hw : g.write_func = .nop
    · rw [← (h.nop hw).2, hk, List.append_nil]
    · rw [hst hw, ← hwait hw, hk]
  | some c =>
    obtain ⟨hread, hwrites, hnew⟩ := h.cache c hc
    obtain ⟨w, hw⟩ := Option.isSome_iff_exists.mp hwrites
    obtain ⟨b, hb⟩ := Option.isSome_iff_exists.mp hnew
    obtain ⟨fs', hcommit, hst, -⟩ := commit_spec hread hw hb
    have hunload : unload g fs = (none, fs') := by
      rw [unload, hc]
      dsimp only
      rw [hcommit]
      rfl
    have hev : written fs c = events (b ++ w) := by rw [written, hb, hw]; rfl
    have hnop : g.write_func ≠ .nop := by
      intro hn
      rw [(h.nop hn).1] at hc
      cases hc
    rw [hunload]
    exact ⟨rfl, by rw [hst, ← hev, hfile c hc, hwait hnop]⟩

omit [EventCodec α] in
theorem Ledger.step_sent (h : l.sent ≤ l.published.length)
    (op : EngineOp α (List α)) : (l.step op).sent ≤ (l.step op).published.length := by
  cases op with
  | start =>
    simp only [Ledger.step]
    split
    · exact Nat.le_refl _
    · exact h
  | publish es =>
    have hle : l.sent ≤ (l.published ++ es).length := by rw [List.length_append]; omega
    simp only [Ledger.step]
    split
    · dsimp only
      split
      · exact Nat.le_refl _
      · exact hle
    · exact h
  | _ => exact h

/-- **A call keeps to the ledger.** -/
theorem step_keeps {p : Process α (List α)} (h : Keeps p l)
    {op : EngineOp α (List α)} (hsound : Sound op p) :
    Keeps (step keep op p).2 (l.step op) := by
  obtain ⟨inst, fs⟩ := p
  have hsent := Ledger.step_sent h.sent op
  cases inst with
  | none =>
    obtain ⟨hj, hrun, hst⟩ := h.unloaded rfl
    cases op with
    | load =>
      refine ⟨hsent, nofun, fun g hg => ?_⟩
      cases hg
      refine ⟨hrun, nofun, fun _ => ⟨rfl, ?_⟩, nofun, nofun, ?_, fun ms hms => ?_⟩
      · exact (List.append_nil _).trans hst
      · show Option.map _ (some (l.joined.getD [])) = _
        rw [hj]
        rfl
      · cases hms
        rw [hj]
        exact nofun
    | unload => exact ⟨hsent, fun _ => ⟨rfl, rfl, hst⟩, nofun⟩
    | stop => exact ⟨hsent, fun _ => ⟨hj, rfl, hst⟩, nofun⟩
    | subscribe m =>
      refine ⟨hsent, fun _ => ⟨?_, hrun, hst⟩, nofun⟩
      show l.joined.map _ = none
      rw [hj]
      rfl
    | start =>
      have hl : l.step .start = l := if_neg (by rw [hj]; exact Bool.false_ne_true)
      rw [hl]
      exact h
    | publish es =>
      have hl : l.step (.publish es) = l := if_neg (by rw [hj]; exact Bool.false_ne_true)
      rw [hl]
      exact h
  | some g =>
    have hlive := h.loaded g rfl
    obtain ⟨hstart, hstop, hunload⟩ := hsound g rfl
    -- an instance that stays has the ledger of its step
    have hsome : ∀ {g' : Engine α (List α)} {fs'}, Live fs' g' (l.step op) →
        Keeps ⟨some g', fs'⟩ (l.step op) := fun h' => ⟨hsent, nofun, fun g hg => by cases hg; exact h'⟩
    cases op with
    | load =>
      obtain ⟨ms, hms⟩ := Option.isSome_iff_exists.mp hlive.joined_isSome
      have hl : l.step .load = l := by
        rw [Ledger.step, hms, Option.getD_some, ← hms]
      rw [hl] at hsome ⊢
      exact hsome hlive
    | unload =>
      obtain ⟨hnone, hst⟩ := unload_keeps hlive (hunload rfl).1 (hunload rfl).2
      show Keeps ⟨(unload g fs).1, (unload g fs).2⟩ _
      rw [hnone]
      exact ⟨hsent, fun _ => ⟨rfl, rfl, hst⟩, nofun⟩
    | start => exact hsome (start_live hlive h.sent (hstart rfl))
    | stop => exact hsome (stop_live hlive (hstop rfl))
    | publish es => exact hsome (publish_live hlive h.sent es)
    | subscribe m => exact hsome (subscribe_live hlive m)

/-! ## Every run -/

/-- Every call of a run is sound. -/
def SoundRun : List (EngineOp α (List α)) → Process α (List α) → Prop
  | [], _ => True
  | op :: ops, p => Sound op p ∧ SoundRun ops (step keep op p).2

theorem run_keeps {ops : List (EngineOp α (List α))} {p : Process α (List α)}
    (h : Keeps p l) (hs : SoundRun ops p) : Keeps (run keep ops p) (l.run ops) := by
  induction ops generalizing p l with
  | nil => exact h
  | cons op ops ih => exact ih (step_keeps h hs.1) hs.2

/-- The ledger of a first process, on the files of those before. -/
def Ledger.init (fs : Files Name) : Ledger α := ⟨stored fs, 0, false, none⟩

/--
**Delivery is exactly-once across the life of the engine**, in a run where nothing that a
stop left behind is used twice: each subscriber has what was sent since it came, each event
once and in the order of publication.
-/
theorem delivery_exactly_once (fs : Files Name) (ops : List (EngineOp α (List α)))
    (h : SoundRun ops ⟨none, fs⟩) :
    (run keep ops ⟨none, fs⟩).instance_.map Engine.muxers =
      ((Ledger.init fs).run ops).joined.map (List.map ((Ledger.init fs).run ops).received) := by
  have hk := run_keeps (l := .init fs)
    ⟨Nat.zero_le _, fun _ => ⟨rfl, rfl, rfl⟩, fun g hg => by cases hg⟩ h
  cases hinst : (run keep ops ⟨none, fs⟩).instance_ with
  | none =>
    rw [(hk.unloaded hinst).1]
    rfl
  | some g => exact (hk.loaded g hinst).muxers.symm

theorem events_one (e : α) : (events (File.partHeader ++ EventCodec.serialize e) : List α) = [e] := by
  have h := events_written [e]
  simpa using h

theorem events_header : (events File.partHeader : List α) = [] := by
  have h := events_written ([] : List α)
  simpa using h

/-- A process that is stopped with an event to send, and the next one. -/
def restart (e₁ e₂ : α) : List (EngineOp α (List α)) :=
  [.load, .subscribe [], .start, .publish [e₁], .stop, .publish [e₂], .unload, .load,
    .subscribe [], .start]

theorem soundRun_restart (e₁ e₂ : α) : SoundRun (restart e₁ e₂) ⟨none, fun _ => none⟩ := by
  have hlen : File.partHeader.length = 8 := rfl
  simp [restart, SoundRun, Sound, step, init, start, stop, publish, publishOne, send_keep, readCache,
    openRead, openFile, transaction, closeCache, closeRead, closeWrite, flush, writeToCacheFile, add,
    unload, commit, commitSteps, runSteps, Files.rename, written, File.partHeaderSize, hlen, events_header, events_one]

/-- An event that a start sent, in the transaction of the stop before it. -/
def restarted (e : α) : List (EngineOp α (List α)) :=
  [.load, .start, .stop, .publish [e], .subscribe [], .start, .unload, .load, .subscribe [], .start]

theorem run_restarted (e : α) :
    (run keep (restarted e) ⟨none, fun _ => none⟩).instance_.map Engine.muxers = some [[e]] := by
  have hlen : File.partHeader.length = 8 := rfl
  simp [restarted, run, step, init, start, stop, publish, publishOne, send_keep, readCache,
    openRead, openFile, transaction, closeCache, closeRead, closeWrite, flush, writeToCacheFile, add,
    unload, commit, commitSteps, runSteps, Files.rename, File.partHeaderSize, hlen, events_header, events_one]

/-- What the second process starts with is what the first one had not sent. -/
theorem delivery_exactly_once_restart :
    (run keep (restart (hostStatus 1) (hostStatus 2)) ⟨none, fun _ => none⟩).instance_.map
        Engine.muxers =
      ((Ledger.init fun _ => none).run (restart (hostStatus 1) (hostStatus 2))).joined.map
        (List.map
          ((Ledger.init fun _ => none).run (restart (hostStatus 1) (hostStatus 2))).received) :=
  delivery_exactly_once _ _ (soundRun_restart _ _)

/-- **An event is sent again**: by a start, and by the next process. -/
theorem not_delivery_exactly_once :
    ¬ (run keep (restarted (hostStatus 1)) ⟨none, fun _ => none⟩).instance_.map Engine.muxers =
      ((Ledger.init fun _ => none).run (restarted (hostStatus 1))).joined.map
        (List.map ((Ledger.init fun _ => none).run (restarted (hostStatus 1))).received) := by
  have hledger : ((Ledger.init fun _ => none).run (restarted (hostStatus 1))).joined.map
      (List.map ((Ledger.init fun _ => none).run (restarted (hostStatus 1))).received) =
        some [[]] := rfl
  rw [run_restarted, hledger]
  simp

end CentreonBroker.Multiplexing.Engine
