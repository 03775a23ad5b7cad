import CentreonBroker.Storage.MainLoop

/-!
# The end of the batching loop

The batching loop ends after enough events, or after some time. The time is measured after each
event, but not after a sleep, so that the loop does not end while nothing comes.
-/

namespace CentreonBroker.Storage.MainLoop

variable {T R : Type} (cfg : LoopConfig)

/-- After how long the batching loop ends. -/
def limit : ℕ := cfg.loop_timeout * 1000

/-- The loop is at its beginning, where its condition is checked. -/
structure AtHead (m : MainLoop T R) (t : Turn) : Prop where
  turn : m.turn = some t
  events : m.events = []
  waits : t.waits = false

/-- The loop does not go on once it lasted long enough. -/
def Timely (m : MainLoop T R) : Prop :=
  ∀ t, m.AtHead t → limit cfg ≤ m.now - t.now0 → ¬ goesOn cfg t

/-- A sleep ends before the loop lasted long enough. -/
def ShortSleep (m : MainLoop T R) : Prop :=
  ∀ t, m.turn = some t → m.should_exit = false → m.now + 500 < t.now0 + limit cfg

/-- The steps of the batching loop. -/
def InLoop : Step T → Prop
  | .look | .wait | .handle _ => True
  | _ => False

/-- How much of the loop is left: events to count and time, then the way to the next check of its
condition. -/
def measure (m : MainLoop T R) (t : Turn) : ℕ ×ₗ ℕ ×ₗ ℕ :=
  toLex (cfg.max_pending_queries - t.count + (limit cfg - (m.now - t.now0)),
    toLex (if m.events ≠ [] then 1 else if t.waits then 2 else if goesOn cfg t then 3 else 0,
      m.events.length))

/-- The loop is timely in all the states of a run, and each of its steps decreases the measure. -/
structure Ends (handling : Element T 2 → Handling R) (acts : List (Step T)) (m₀ : MainLoop T R) :
    Prop where
  timely : ∀ pre post m, acts = pre ++ post → run cfg handling pre m₀ = some m → Timely cfg m
  decreases : ∀ pre a post m m' t t', acts = pre ++ a :: post → InLoop a →
    run cfg handling pre m₀ = some m → m.step cfg handling a = some m' → m.turn = some t →
      m'.turn = some t' → measure cfg m' t' < measure cfg m t

variable {cfg} {handling : Element T 2 → Handling R} {m m' m₀ : MainLoop T R} {t t' : Turn}

/-! ## What a step does to a turn -/

theorem flushLong_spec (cfg : LoopConfig) (t : Turn) (m : MainLoop T R) :
    (flushLong cfg t m).1.now0 = t.now0 ∧ (flushLong cfg t m).1.count = t.count ∧
      (flushLong cfg t m).1.waits = t.waits ∧ (flushLong cfg t m).1.left = t.left ∧
        (flushLong cfg t m).2.now = m.now ∧ (flushLong cfg t m).2.events = m.events :=
  @flushLong_keeps T R m cfg (fun t' m' => t'.now0 = t.now0 ∧ t'.count = t.count ∧
      t'.waits = t.waits ∧ t'.left = t.left ∧ m'.now = m.now ∧ m'.events = m.events) t
    (fun _ _ _ h => h) (fun _ _ _ h => h) (fun _ _ _ h => h) (fun _ _ _ h => h)
    ⟨rfl, rfl, rfl, rfl, rfl, rfl⟩

theorem counted_spec (cfg : LoopConfig) (t : Turn) (m : MainLoop T R) :
    ∃ t', (counted cfg t m).turn = some t' ∧ t'.now0 = t.now0 ∧ t'.count = t.count + 1 ∧
      t'.waits = t.waits ∧ t'.left = t.left ∧ t'.timeout = m.now - t.now0 ∧
        (counted cfg t m).now = m.now ∧ (counted cfg t m).events = m.events := by
  obtain ⟨hnow0, hcount, hwaits, hleft, hnow, hevents⟩ :=
    flushLong_spec cfg { t with count := t.count + 1 } m
  generalize hlong : flushLong cfg { t with count := t.count + 1 } m = long at *
  have hcounted : counted cfg t m = { long.2 with
      turn := some { long.1 with timeout := long.2.now - long.1.now0 } } := by
    rw [counted, hlong]
  rw [hcounted]
  exact ⟨_, rfl, hnow0, hcount, hwaits, hleft, congrArg₂ _ hnow hnow0, hnow, hevents⟩

/-- A handler that does not throw counts an event, and the time is measured. -/
theorem handle_spec {o : Handling R} {el : Element T 2} {rest : List (Element T 2)} {time : ℕ}
    (hturn : (m.handle cfg o el rest time t).turn = some t') :
    t'.now0 = t.now0 ∧ t'.count = t.count + 1 ∧ t'.waits = t.waits ∧ t'.left = t.left ∧
      t'.timeout = m.now + time - t.now0 ∧ (m.handle cfg o el rest time t).now = m.now + time ∧
        (m.handle cfg o el rest time t).events = rest := by
  unfold handle at hturn ⊢
  cases o with
  | throws _ _ _ _ => cases hturn
  | _ =>
    obtain ⟨t'', hturn', hspec⟩ := counted_spec cfg t
      { m.handleEvent _ el with events := rest, now := m.now + time }
    obtain rfl := Option.some.inj (hturn'.symm.trans hturn)
    exact hspec

/-! ## Runs whose sleeps are short -/

variable (cfg) in
/-- What the loop knows of a turn. -/
structure TurnInv (m : MainLoop T R) : Prop where
  le : ∀ t, m.turn = some t → t.now0 ≤ m.now
  waits : ∀ t, m.turn = some t → t.waits = true → m.events = [] ∧ goesOn cfg t
  /-- The time was measured, or the limit is ahead. -/
  fresh : ∀ t, m.AtHead t → t.left = false →
    m.now - t.now0 = t.timeout ∨ m.now - t.now0 < limit cfg

theorem turnInv_start (ack : Fin 2 → ℤ) (now : ℕ) : TurnInv cfg (start ack now : MainLoop T R) where
  le t ht := by cases ht
  waits t ht := by cases ht
  fresh t ht := by cases ht.turn

theorem TurnInv.timely (h : TurnInv cfg m) : Timely cfg m := by
  intro t hhead hlimit hgoes
  have hbound : t.timeout < limit cfg := hgoes.2.2
  rcases h.fresh t hhead hgoes.1 with heq | hlt
  · omega
  · omega

theorem TurnInv.step (h : TurnInv cfg m) {a : Step T} (hshort : a = .wait → ShortSleep cfg m)
    (hstep : m.step cfg handling a = some m') : TurnInv cfg m' := by
  rcases step_cases hstep with ⟨c, e, address, base, -, -, rfl⟩ | ⟨c, -, rfl⟩ | ⟨-, rfl⟩ |
    ⟨-, -, rfl⟩ | ⟨t, -, hturn, hevents, hwaits, hgoes, rfl⟩ | ⟨t, rfl, hturn, hwaits, rfl⟩ |
    ⟨time, t, el, rest, -, hturn, hevents, rfl⟩ | ⟨t, -, hturn, -, -, -, rfl⟩
  · exact ⟨h.le, h.waits, fun t ht => h.fresh t ⟨ht.turn, ht.events, ht.waits⟩⟩
  · exact ⟨h.le, h.waits, fun t ht => h.fresh t ⟨ht.turn, ht.events, ht.waits⟩⟩
  · exact ⟨h.le, h.waits, fun t ht => h.fresh t ⟨ht.turn, ht.events, ht.waits⟩⟩
  · refine ⟨fun t ht => ?_, fun t ht hwaits => ?_, fun t ht _ => .inl ?_⟩
    · cases ht
      exact Nat.le_refl _
    · cases ht
      cases hwaits
    · cases ht.turn
      exact Nat.sub_self _
  · refine ⟨fun t' ht' => ?_, fun t' ht' hwaits' => ?_, fun t' ht' _ => ?_⟩
    · cases ht'
      exact h.le t hturn
    · cases ht'
      exact ⟨List.isEmpty_iff.mp hwaits', hgoes⟩
    · -- it waits if it has no event
      obtain ⟨hturn', hevents', hwaits'⟩ := ht'
      cases hturn'
      have hnone : m.base.fifo.events.isEmpty = false := hwaits'
      rw [show m.base.fifo.events = [] from hevents'] at hnone
      cases hnone
  · obtain ⟨hevents, hgoes⟩ := h.waits t hturn hwaits
    have hle := h.le t hturn
    unfold wait
    split
    · refine ⟨fun t' ht' => ?_, fun t' ht' hwaits' => ?_, fun t' ht' hleft => ?_⟩
      · cases ht'
        exact hle
      · cases ht'
        cases hwaits'
      · cases ht'.turn
        cases hleft
    · rename_i hstay
      have hsleep := hshort rfl t hturn (Bool.eq_false_iff.mpr hstay)
      refine ⟨fun t' ht' => ?_, fun t' ht' hwaits' => ?_, fun t' ht' _ => .inr ?_⟩
      · cases ht'
        exact Nat.le_add_right_of_le hle
      · cases ht'
        cases hwaits'
      · cases ht'.turn
        show m.now + 500 - t.now0 < limit cfg
        omega
  · have hle := h.le t hturn
    refine ⟨fun t' ht' => ?_, fun t' ht' hwaits' => ?_, fun t' ht' _ => ?_⟩
    · obtain ⟨hnow0, -, -, -, -, hnow, -⟩ := handle_spec ht'
      rw [hnow0, hnow]
      exact Nat.le_add_right_of_le hle
    · obtain ⟨-, -, hwaits, -⟩ := handle_spec ht'
      obtain ⟨hnone, -⟩ := h.waits t hturn (hwaits.symm.trans hwaits')
      rw [hevents] at hnone
      cases hnone
    · obtain ⟨hnow0, -, -, -, htimeout, hnow, -⟩ := handle_spec ht'.turn
      rw [hnow0, hnow, htimeout]
      exact .inl rfl
  · refine ⟨fun t ht => ?_, fun t ht => ?_, fun t ht => ?_⟩
    · cases ht
    · cases ht
    · cases ht.turn

theorem TurnInv.run (h : TurnInv cfg m₀) {acts : List (Step T)}
    (hshort : ∀ pre post m, acts = pre ++ .wait :: post → run cfg handling pre m₀ = some m →
      ShortSleep cfg m) (hrun : run cfg handling acts m₀ = some m) : TurnInv cfg m := by
  induction acts generalizing m₀ with
  | nil =>
    cases hrun
    exact h
  | cons a acts ih =>
    obtain ⟨m₁, hstep, hrun⟩ := Option.bind_eq_some_iff.mp hrun
    refine ih (h.step (fun ha => ?_) hstep) (fun pre post m hacts hpre => ?_) hrun
    · exact hshort [] acts m₀ (by rw [ha]; rfl) rfl
    · refine hshort (a :: pre) post m (by rw [hacts]; rfl) ?_
      exact Option.bind_eq_some_iff.mpr ⟨m₁, hstep, hpre⟩

/-! ## The measure -/

theorem measure_lt_of_left {A A' : ℕ} {p p' : ℕ ×ₗ ℕ} (h : A' < A) :
    (toLex (A', p') : ℕ ×ₗ ℕ ×ₗ ℕ) < toLex (A, p) := Prod.Lex.toLex_lt_toLex.mpr (.inl h)

theorem measure_lt_of_phase {A A' B B' C C' : ℕ} (hA : A' ≤ A) (hB : B' < B) :
    (toLex (A', toLex (B', C')) : ℕ ×ₗ ℕ ×ₗ ℕ) < toLex (A, toLex (B, C)) := by
  rcases hA.lt_or_eq with hlt | rfl
  · exact measure_lt_of_left hlt
  · exact Prod.Lex.toLex_lt_toLex.mpr (.inr ⟨rfl, Prod.Lex.toLex_lt_toLex.mpr (.inl hB)⟩)

theorem measure_lt_of_events {A A' B C C' : ℕ} (hA : A' ≤ A) (hC : C' < C) :
    (toLex (A', toLex (B, C')) : ℕ ×ₗ ℕ ×ₗ ℕ) < toLex (A, toLex (B, C)) := by
  rcases hA.lt_or_eq with hlt | rfl
  · exact measure_lt_of_left hlt
  · exact Prod.Lex.toLex_lt_toLex.mpr
      (.inr ⟨rfl, Prod.Lex.toLex_lt_toLex.mpr (.inr ⟨rfl, hC⟩)⟩)

theorem TurnInv.measure_lt (h : TurnInv cfg m) {a : Step T} (hloop : InLoop a)
    (hshort : a = .wait → ShortSleep cfg m) (hstep : m.step cfg handling a = some m')
    (ht : m.turn = some t) (ht' : m'.turn = some t') : measure cfg m' t' < measure cfg m t := by
  rcases step_cases hstep with ⟨c, e, address, base, rfl, -, rfl⟩ | ⟨c, rfl, rfl⟩ | ⟨rfl, rfl⟩ |
    ⟨rfl, -, rfl⟩ | ⟨t₀, rfl, hturn, hevents, hwaits, hgoes, rfl⟩ | ⟨t₀, rfl, hturn, hwaits, rfl⟩ |
    ⟨time, t₀, el, rest, rfl, hturn, hevents, rfl⟩ | ⟨t₀, rfl, hturn, -, -, -, rfl⟩
  · exact hloop.elim
  · exact hloop.elim
  · exact hloop.elim
  · exact hloop.elim
  · obtain rfl := Option.some.inj (hturn.symm.trans ht)
    cases ht'
    unfold measure
    have hphase : (if m.events ≠ [] then 1 else if t₀.waits then 2 else
        if goesOn cfg t₀ then 3 else 0) = 3 := by
      rw [if_neg (not_not.mpr hevents), hwaits, if_neg Bool.false_ne_true, if_pos hgoes]
    rw [hphase]
    refine measure_lt_of_phase (Nat.le_refl _) ?_
    show (if m.base.fifo.events ≠ [] then 1 else if m.base.fifo.events.isEmpty then 2 else _) < 3
    split
    · omega
    · rename_i hnone
      rw [not_not.mp hnone, if_pos List.isEmpty_nil]
      omega
  · obtain rfl := Option.some.inj (hturn.symm.trans ht)
    obtain ⟨hevents, hgoes⟩ := h.waits t₀ hturn hwaits
    have hphase : (if m.events ≠ [] then 1 else if t₀.waits then 2 else
        if goesOn cfg t₀ then 3 else 0) = 2 := by
      rw [if_neg (not_not.mpr hevents), if_pos hwaits]
    unfold measure
    rw [hphase]
    unfold wait at ht' ⊢
    split at ht'
    · rename_i hexit
      cases ht'
      rw [if_pos hexit]
      refine measure_lt_of_phase (Nat.le_refl _) ?_
      have hleft : ¬ goesOn cfg { t₀ with waits := false, left := true } :=
        fun hgoes => by cases hgoes.1
      rw [if_neg (not_not.mpr hevents), if_neg Bool.false_ne_true, if_neg hleft]
      omega
    · rename_i hstay
      cases ht'
      rw [if_neg hstay]
      have hsleep := hshort rfl t₀ hturn (Bool.eq_false_iff.mpr hstay)
      have hle := h.le t₀ hturn
      refine measure_lt_of_left ?_
      show cfg.max_pending_queries - t₀.count + (limit cfg - (m.now + 500 - t₀.now0)) <
        cfg.max_pending_queries - t₀.count + (limit cfg - (m.now - t₀.now0))
      omega
  · obtain rfl := Option.some.inj (hturn.symm.trans ht)
    obtain ⟨hnow0, hcount, hwaits, -, -, hnow, hrest⟩ := handle_spec ht'
    have hwaiting : t₀.waits = false := by
      rcases Bool.eq_false_or_eq_true t₀.waits with htrue | hfalse
      · have hnone := (h.waits t₀ hturn htrue).1
        rw [hevents] at hnone
        cases hnone
      · exact hfalse
    unfold measure
    rw [hnow0, hcount, hwaits, hnow, hrest, hevents, hwaiting, if_pos (List.cons_ne_nil el rest)]
    cases rest with
    | nil =>
      rw [if_neg (not_not.mpr rfl), if_neg Bool.false_ne_true]
      split
      · rename_i hgoes
        have hmore := hgoes.2.1
        rw [hcount] at hmore
        exact measure_lt_of_left (by omega)
      · exact measure_lt_of_phase (by omega) Nat.one_pos
    | cons el' rest =>
      rw [if_pos (List.cons_ne_nil el' rest)]
      exact measure_lt_of_events (by omega) (Nat.lt_succ_self _)
  · exact hloop.elim

/-! ## The property -/

/-- The prefix of a run is a run. -/
theorem run_prefix {pre post : List (Step T)}
    (hrun : run cfg handling (pre ++ post) m₀ = some m') :
    ∃ m, run cfg handling pre m₀ = some m ∧ run cfg handling post m = some m' := by
  rw [run_append] at hrun
  exact Option.bind_eq_some_iff.mp hrun

/-- The batching loop ends in time, and each of its steps leads to its end, if and only if every
sleep ends before it lasted long enough. -/
theorem ends_iff {acts : List (Step T)} {ack : Fin 2 → ℤ} {now : ℕ}
    (hrun : run cfg handling acts (start ack now) = some m) :
    Ends cfg handling acts (start ack now) ↔
      ∀ pre post m, acts = pre ++ .wait :: post →
        run cfg handling pre (start ack now) = some m → ShortSleep cfg m := by
  constructor
  · intro hends
    have hall : ∀ n pre post m, pre.length = n → acts = pre ++ .wait :: post →
        run cfg handling pre (start ack now) = some m → ShortSleep cfg m := by
      intro n
      induction n using Nat.strong_induction_on with
      | _ n ih =>
        intro pre post m hlength hacts hpre t hturn hstay
        -- the sleeps before this one are short
        have hinv : TurnInv cfg m := by
          refine (turnInv_start ack now).run (fun pre' post' m' hpre' hrun' => ?_) hpre
          refine ih pre'.length ?_ pre' (post' ++ .wait :: post) m' rfl ?_ hrun'
          · rw [← hlength, hpre', List.length_append, List.length_cons]
            omega
          · rw [hacts, hpre', List.append_assoc, List.cons_append]
        by_contra hlong
        rw [hacts] at hrun
        obtain ⟨m₁, hpre₁, hrun₁⟩ := run_prefix hrun
        obtain rfl := Option.some.inj (hpre.symm.trans hpre₁)
        obtain ⟨m₂, hstep, -⟩ := Option.bind_eq_some_iff.mp hrun₁
        have hreached : run cfg handling (pre ++ [.wait]) (start ack now) = some m₂ := by
          rw [run_append, hpre, Option.bind_some]
          exact Option.bind_eq_some_iff.mpr ⟨m₂, hstep, rfl⟩
        have htimely := hends.timely (pre ++ [.wait]) post m₂
          (by rw [hacts, List.append_assoc, List.singleton_append]) hreached
        obtain ⟨t', hturn', hstep⟩ := Option.bind_eq_some_iff.mp hstep
        obtain rfl := Option.some.inj (hturn.symm.trans hturn')
        split at hstep
        · rename_i hwaits
          obtain ⟨hevents, hgoes⟩ := hinv.waits t hturn hwaits
          cases hstep
          unfold wait at htimely
          rw [if_neg (Bool.eq_false_iff.mp hstay)] at htimely
          refine htimely { t with waits := false } ⟨rfl, hevents, rfl⟩ ?_ hgoes
          show limit cfg ≤ m.now + 500 - t.now0
          omega
        · cases hstep
    exact fun pre post m => hall pre.length pre post m rfl
  · intro hshort
    have hinv : ∀ pre post m, acts = pre ++ post →
        run cfg handling pre (start ack now) = some m → TurnInv cfg m := by
      intro pre post m hacts hpre
      refine (turnInv_start ack now).run (fun pre' post' m' hpre' hrun' => ?_) hpre
      exact hshort pre' (post' ++ post) m'
        (by rw [hacts, hpre', List.append_assoc, List.cons_append]) hrun'
    refine ⟨fun pre post m hacts hpre => (hinv pre post m hacts hpre).timely, ?_⟩
    intro pre a post m m' t t' hacts hloop hpre hstep ht ht'
    refine (hinv pre (a :: post) m hacts hpre).measure_lt hloop (fun ha => ?_) hstep ht ht'
    exact hshort pre post m (by rw [hacts, ha]) hpre

/-- A second to handle events, and two events at most. -/
def oneSecond : LoopConfig := ⟨1, 2, 0, 0, 0, 0⟩

/-- Every event is handled at once. -/
def atOnce : Element Char 2 → Handling Char := fun el => .direct [el.data]

/-- A turn in which an event comes after a sleep. -/
def shortTurn : List (Step Char) :=
  [.begin, .look, .wait, .send_event sql 'a' 10, .look, .handle 600, .finish_actions]

theorem ends_iff_shortTurn : ∃ m, run oneSecond atOnce shortTurn (start (fun _ => 0) 0) = some m ∧
    (Ends oneSecond atOnce shortTurn (start (fun _ => 0) 0) ↔
      ∀ pre post m, shortTurn = pre ++ .wait :: post →
        run oneSecond atOnce pre (start (fun _ => 0) 0) = some m → ShortSleep oneSecond m) := by
  have hruns : ∃ m, run oneSecond atOnce shortTurn (start (fun _ => 0) 0) = some m := ⟨_, rfl⟩
  obtain ⟨m, hrun⟩ := hruns
  exact ⟨m, hrun, ends_iff hrun⟩

/-- Two sleeps last as long as the loop may. -/
theorem not_ends : ¬ ∀ (cfg : LoopConfig) (handling : Element Char 2 → Handling Char)
    (acts : List (Step Char)) (m : MainLoop Char Char),
    run cfg handling acts (start (fun _ => 0) 0) = some m →
      Ends cfg handling acts (start (fun _ => 0) 0) := by
  intro h
  have htimely := (h oneSecond atOnce [.begin, .look, .wait, .look, .wait] _ rfl).timely
    [.begin, .look, .wait, .look, .wait] [] _ rfl rfl
  refine htimely ⟨0, 0, 0, 0, 0, 0, 0, false, false⟩ ⟨rfl, rfl, rfl⟩ (by decide) (by decide)

end CentreonBroker.Storage.MainLoop
