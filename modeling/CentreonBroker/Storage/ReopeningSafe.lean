import CentreonBroker.Storage.Reopening

/-!
# What is acknowledged after a stream was opened again

No queue has pushes of two storage streams, nor of two sql streams: a storage stream cannot be
opened on a manager whose thread another one started, and each sql stream has a manager of its
own. So the acknowledgements of a stream are those of its own pushes, and all that is removed
from a muxer is processed, as long as no manager is made with something in `_ack`.
-/

namespace CentreonBroker.Storage.Reopening

open Multiplexing

section

variable {F T D : Type}

theorem eq_storage : ∀ i : Fin 2, i ≠ sql → i = storage := by decide

/-- The event of that rank, of the muxer of `i`, is processed by a manager. -/
def Processed (w : World F T D) (i : Fin 2) (rank : ℕ) : Prop :=
  ∃ m < w.created, ∃ k : ℕ, ((w.managers m).ranks i)[k]? = some rank ∧
    ((w.managers m).sources.pushed i)[k]? = some true

/-- A manager that was made with no acknowledgement. -/
structure ConflictManager.Sound (c : ConflictManager T) : Prop where
  inv : c.sources.Inv 0
  ack_nonneg : ∀ i, 0 ≤ c.sources.fifo.ack i
  returned_nonneg : ∀ i, 0 ≤ c.sources.returned i
  ranks : ∀ i, (c.ranks i).length = (c.sources.pushed i).length
  /-- Nothing is counted before the thread starts. -/
  idle : c.thread = false → ∀ i, c.sources.fifo.ack i = 0

/--
All that a manager was given by `i` is what the current stream of `i` pushed: the events that
its muxer delivered since the stream was opened.
-/
structure Linked (c : ConflictManager T) (i : Fin 2) (q : AckQueue T) (first : ℕ) : Prop where
  cursor : q.cursor = first + (c.sources.pushed i).length
  acked : (q.acked : ℤ) = first + c.sources.returned i
  ranks : ∀ k < (c.sources.pushed i).length, (c.ranks i)[k]? = some (first + k)

/-- What holds after any steps. -/
structure Good [QueueFile F T D] [LawfulQueueFile F] (max : ℕ) (w : World F T D) : Prop where
  managers : ∀ m, (w.managers m).Sound
  tracks : ∀ i, Tracks max (w.session i)
  singleton_lt : ∀ m, w.singleton = some m → m < w.created
  /-- Without a storage stream of its own, a manager has one user, the sql stream. -/
  alone : ∀ m, w.singleton = some m → (w.managers m).thread = false → (w.managers m).ref_count = 1
  /-- Then a storage stream that was opened before may push to it, and no other. -/
  clear : ∀ m, w.singleton = some m → (w.managers m).thread = false → w.stream storage = false →
    (w.managers m).sources.pushed storage = []
  sql_linked : ∀ m, w.singleton = some m → w.stream sql = true →
    ∃ first, Linked (w.managers m) sql (w.session sql).queue first
  storage_linked : ∀ m, w.singleton = some m → w.stream storage = true →
    (w.managers m).thread = true → ∃ first, Linked (w.managers m) storage (w.session storage).queue first
  processed : ∀ i rank, rank < (w.session i).queue.acked → Processed w i rank

/-! ## One manager -/

variable {c : ConflictManager T}

theorem sound_new : (ConflictManager.new (fun _ => 0) : ConflictManager T).Sound where
  inv := Sources.inv_start 0
  ack_nonneg _ := le_refl 0
  returned_nonneg _ := le_refl 0
  ranks _ := rfl
  idle _ _ := rfl

/-- What was pushed is the same, and what is processed stays so. -/
structure Onward (c c' : ConflictManager T) : Prop where
  ranks : ∀ (i : Fin 2) (k r : ℕ), (c.ranks i)[k]? = some r → (c'.ranks i)[k]? = some r
  processed : ∀ (i : Fin 2) (k : ℕ), (c.sources.pushed i)[k]? = some true →
    (c'.sources.pushed i)[k]? = some true

theorem Onward.refl (c : ConflictManager T) : Onward c c := ⟨fun _ _ _ h => h, fun _ _ h => h⟩

/-- The thread of a manager pushes nothing and takes no acknowledgement. -/
theorem ConflictManager.Sound.work (h : c.Sound) {op : Work} {sources : Sources T 2}
    (hstep : c.sources.step op.op = some sources) (hthread : c.thread = true) :
    ({ c with sources := sources } : ConflictManager T).Sound ∧
      Onward c { c with sources := sources } ∧ sources.returned = c.sources.returned ∧
      ∀ i, (sources.pushed i).length = (c.sources.pushed i).length := by
  have hinv : sources.Inv 0 := h.inv.step hstep
  have hidle : c.thread = false → ∀ i, sources.fifo.ack i = 0 := by
    intro hfalse
    rw [hthread] at hfalse
    cases hfalse
  cases op with
  | first_events =>
    obtain rfl := Option.some.inj hstep
    exact ⟨⟨hinv, h.ack_nonneg, h.returned_nonneg, h.ranks, hidle⟩,
      ⟨fun _ _ _ h => h, fun _ _ h => h⟩, rfl, fun _ => rfl⟩
  | process k =>
    obtain ⟨el, -, rfl⟩ := Option.map_eq_some_iff.mp hstep
    have hlength : ∀ i, ((Function.update c.sources.pushed el.source
        ((c.sources.pushed el.source).set el.rank true)) i).length =
          (c.sources.pushed i).length := by
      intro i
      by_cases hi : i = el.source
      · subst hi
        rw [Function.update_self, List.length_set]
      · rw [Function.update_of_ne hi]
    have honward : ∀ (i : Fin 2) (k : ℕ), (c.sources.pushed i)[k]? = some true →
        ((Function.update c.sources.pushed el.source
          ((c.sources.pushed el.source).set el.rank true)) i)[k]? = some true := by
      intro i k hk
      by_cases hi : i = el.source
      · subst hi
        rw [Function.update_self, List.getElem?_set]
        split
        · rename_i hrank
          rw [if_pos (hrank ▸ (List.getElem?_eq_some_iff.mp hk).1)]
        · exact hk
      · rw [Function.update_of_ne hi]
        exact hk
    exact ⟨⟨hinv, h.ack_nonneg, h.returned_nonneg, fun i => (h.ranks i).trans (hlength i).symm,
        hidle⟩,
      ⟨fun _ _ _ h => h, honward⟩, rfl, hlength⟩
  | clean idx =>
    obtain rfl := Option.some.inj hstep
    refine ⟨⟨hinv, fun i => ?_, h.returned_nonneg, h.ranks, hidle⟩,
      ⟨fun _ _ _ h => h, fun _ _ h => h⟩, rfl, fun _ => rfl⟩
    have hold := h.ack_nonneg i
    show 0 ≤ Function.update c.sources.fifo.ack idx _ i
    by_cases hi : i = idx
    · subst hi
      rw [Function.update_self]
      omega
    · rw [Function.update_of_ne hi]
      exact hold

theorem ConflictManager.Sound.returned_update (h : c.Sound) (i j : Fin 2) :
    0 ≤ Function.update c.sources.returned i (c.sources.returned i + c.sources.fifo.ack i) j := by
  by_cases hj : j = i
  · subst hj
    rw [Function.update_self]
    exact Int.add_nonneg (h.returned_nonneg j) (h.ack_nonneg j)
  · rw [Function.update_of_ne hj]
    exact h.returned_nonneg j

theorem ConflictManager.Sound.get_acks (h : c.Sound) (i : Fin 2) :
    ({ c with sources := c.sources.get_acks i } : ConflictManager T).Sound := by
  have hzero : ∀ j, (c.sources.get_acks i).fifo.ack j = 0 ∨
      (c.sources.get_acks i).fifo.ack j = c.sources.fifo.ack j := by
    intro j
    show Function.update c.sources.fifo.ack i 0 j = 0 ∨ Function.update c.sources.fifo.ack i 0 j = _
    by_cases hj : j = i
    · subst hj
      exact Or.inl (Function.update_self _ _ _)
    · exact Or.inr (Function.update_of_ne hj _ _)
  refine ⟨h.inv.get_acks i, fun j => ?_, fun j => h.returned_update i j, h.ranks,
    fun hthread j => ?_⟩
  · rcases hzero j with hj | hj
    · exact hj.symm.le
    · exact (h.ack_nonneg j).trans hj.symm.le
  · rcases hzero j with hj | hj
    · exact hj
    · exact hj.trans (h.idle hthread j)

variable {i : Fin 2}

/-- A push, and the rank of what is pushed. -/
theorem ConflictManager.Sound.push (h : c.Sound) {e : T} {address : ℕ} (rank : ℕ)
    {sources : Sources T 2} (hstep : c.sources.step (.push i e address) = some sources) :
    ({ c with
      sources := sources
      ranks := Function.update c.ranks i (c.ranks i ++ [rank]) } : ConflictManager T).Sound ∧
    sources.pushed = Function.update c.sources.pushed i (c.sources.pushed i ++ [false]) ∧
    sources.returned = Function.update c.sources.returned i
      (c.sources.returned i + c.sources.fifo.ack i) := by
  have hinv : sources.Inv 0 := h.inv.step hstep
  simp only [Sources.step] at hstep
  split at hstep
  · cases hstep
  · obtain rfl := Option.some.inj hstep
    refine ⟨⟨hinv, fun j => ?_, h.returned_update i, fun j => ?_, fun hthread j => ?_⟩, rfl, rfl⟩
    · have hold := h.ack_nonneg j
      show 0 ≤ Function.update c.sources.fifo.ack i 0 j
      by_cases hj : j = i
      · subst hj
        rw [Function.update_self]
      · rw [Function.update_of_ne hj]
        exact hold
    · have hold := h.ranks j
      show (Function.update c.ranks i _ j).length =
        (Function.update c.sources.pushed i (c.sources.pushed i ++ [false]) j).length
      by_cases hj : j = i
      · subst hj
        rw [Function.update_self, Function.update_self, List.length_append, List.length_append, hold]
        rfl
      · rw [Function.update_of_ne hj, Function.update_of_ne hj, hold]
    · have hold := h.idle hthread j
      show Function.update c.sources.fifo.ack i 0 j = 0
      by_cases hj : j = i
      · subst hj
        rw [Function.update_self]
      · rw [Function.update_of_ne hj]
        exact hold

/-- Nothing is pushed to a manager and nothing is taken from it. -/
structure Still (c c' : ConflictManager T) : Prop extends Onward c c' where
  returned : c'.sources.returned = c.sources.returned
  pushed : ∀ i, (c'.sources.pushed i).length = (c.sources.pushed i).length

variable {q : AckQueue T}

theorem Linked.still {first : ℕ} (h : Linked c i q first)
    {c' : ConflictManager T} (hc : Still c c') : Linked c' i q first where
  cursor := by rw [hc.pushed, h.cursor]
  acked := by rw [hc.returned, h.acked]
  ranks k hk := by
    rw [hc.pushed] at hk
    exact hc.ranks i k _ (h.ranks k hk)

theorem Linked.queue {q' : AckQueue T} {first : ℕ} (h : Linked c i q first)
    (hcursor : q'.cursor = q.cursor) (hacked : q'.acked = q.acked) : Linked c i q' first :=
  ⟨hcursor.trans h.cursor, by rw [hacked, h.acked], h.ranks⟩

/-- What is acknowledged next is what the queue of the manager has removed. -/
theorem Linked.acknowledge {first cursor : ℕ} (h : Linked c i q first)
    (hc : c.Sound) (hcursor : q.cursor ≤ cursor) :
    min (q.acked + (c.sources.fifo.ack i).toNat) cursor = first + c.sources.removed i := by
  have hsum := hc.inv.sum i
  have hle := hc.inv.removed_le i
  have hnonneg := hc.ack_nonneg i
  have hacked := h.acked
  have hat := h.cursor
  rw [Pi.zero_apply] at hsum
  omega

/-! ## The muxers -/

variable [QueueFile F T D] [LawfulQueueFile F] {max : ℕ} {accepts : Fin 2 → T → Bool}
  {w w' : World F T D}

omit [QueueFile F T D] [LawfulQueueFile F] in
theorem Processed.mono {rank : ℕ} (h : Processed w i rank)
    (hcreated : w.created ≤ w'.created)
    (hmanagers : ∀ m < w.created, Onward (w.managers m) (w'.managers m)) : Processed w' i rank := by
  obtain ⟨m, hm, k, hrank, hk⟩ := h
  exact ⟨m, hm.trans_le hcreated, k, (hmanagers m hm).ranks i k rank hrank,
    (hmanagers m hm).processed i k hk⟩

variable {m : ℕ}

/-- What a stream is told now is right, whichever manager it pushes to. -/
theorem Good.acknowledged (h : Good max w) (hm : w.singleton = some m)
    (hstream : w.stream i = true) {cursor : ℕ} (hcursor : (w.session i).queue.cursor ≤ cursor) :
    ∀ rank < min ((w.session i).queue.acked + ((w.managers m).sources.fifo.ack i).toNat) cursor,
      Processed w i rank := by
  have hsound := h.managers m
  have hlinked : ∀ first, Linked (w.managers m) i (w.session i).queue first →
      ∀ rank < min ((w.session i).queue.acked + ((w.managers m).sources.fifo.ack i).toNat) cursor,
        Processed w i rank := by
    intro first hlink rank hrank
    rw [hlink.acknowledge hsound hcursor] at hrank
    by_cases hold : rank < (w.session i).queue.acked
    · exact h.processed i rank hold
    · have hacked := hlink.acked
      have hsum := hsound.inv.sum i
      have hnonneg := hsound.ack_nonneg i
      have hle := hsound.inv.removed_le i
      rw [Pi.zero_apply] at hsum
      -- what was told before is at least nothing
      have hfirst : first ≤ rank := by
        by_contra hlt
        have hreturned : (w.managers m).sources.returned i < 0 := by omega
        exact absurd (hsound.returned_nonneg i) (not_le.mpr hreturned)
      have hk : rank - first < (w.managers m).sources.removed i := by omega
      refine ⟨m, h.singleton_lt m hm, rank - first, ?_, hsound.inv.removed i _ hk⟩
      have hranked := hlink.ranks (rank - first) (by omega)
      rwa [Nat.add_sub_cancel' hfirst] at hranked
  have hidle : (w.managers m).sources.fifo.ack i = 0 →
      ∀ rank < min ((w.session i).queue.acked + ((w.managers m).sources.fifo.ack i).toNat) cursor,
        Processed w i rank := by
    intro hzero rank hrank
    rw [hzero] at hrank
    exact h.processed i rank (by simp at hrank; omega)
  by_cases hi : i = sql
  · subst hi
    obtain ⟨first, hlink⟩ := h.sql_linked m hm hstream
    exact hlinked first hlink
  · obtain rfl := eq_storage i hi
    cases hthread : (w.managers m).thread with
    | true =>
      obtain ⟨first, hlink⟩ := h.storage_linked m hm hstream hthread
      exact hlinked first hlink
    | false => exact hidle (hsound.idle hthread storage)

/-! ## What each action keeps -/

omit [QueueFile F T D] [LawfulQueueFile F] in
theorem session_setSession (i : Fin 2) (s : Session F T D) (j : Fin 2) :
    (w.setSession i s).session j = if j = i then s else w.session j :=
  Function.update_apply _ _ _ _

omit [QueueFile F T D] [LawfulQueueFile F] in
theorem managers_setManager (m : ℕ) (m' : ℕ) :
    (w.setManager m c).managers m' = if m' = m then c else w.managers m' :=
  Function.update_apply _ _ _ _

omit [QueueFile F T D] [LawfulQueueFile F] in
theorem stream_setStream (i : Fin 2) (opened : Bool) (j : Fin 2) :
    (w.setStream i opened).stream j = if j = i then opened else w.stream j :=
  Function.update_apply _ _ _ _

omit [QueueFile F T D] [LawfulQueueFile F] in
theorem onward_setManager (hc : Onward (w.managers m) c) (m' : ℕ) :
    Onward (w.managers m') ((w.setManager m c).managers m') := by
  rw [managers_setManager]
  split
  · rename_i hm
    rw [hm]
    exact hc
  · exact Onward.refl _

variable {s : Session F T D}

/-- What is not read nor acknowledged does not matter. -/
theorem Good.setSession (h : Good max w) (hs : Tracks max s)
    (hcursor : s.queue.cursor = (w.session i).queue.cursor)
    (hacked : s.queue.acked = (w.session i).queue.acked) : Good max (w.setSession i s) := by
  have hqueue : ∀ j, ((w.setSession i s).session j).queue.cursor = (w.session j).queue.cursor ∧
      ((w.setSession i s).session j).queue.acked = (w.session j).queue.acked := by
    intro j
    rw [session_setSession]
    split
    · rename_i hj
      rw [hj]
      exact ⟨hcursor, hacked⟩
    · exact ⟨rfl, rfl⟩
  refine
    { managers := h.managers
      tracks := fun j => ?_
      singleton_lt := h.singleton_lt
      alone := h.alone
      clear := h.clear
      sql_linked := fun m hm hstream => ?_
      storage_linked := fun m hm hstream hthread => ?_
      processed := fun j rank hrank => ?_ }
  · rw [session_setSession]
    split
    · exact hs
    · exact h.tracks j
  · obtain ⟨first, hlink⟩ := h.sql_linked m hm hstream
    exact ⟨first, hlink.queue (hqueue sql).1 (hqueue sql).2⟩
  · obtain ⟨first, hlink⟩ := h.storage_linked m hm hstream hthread
    exact ⟨first, hlink.queue (hqueue storage).1 (hqueue storage).2⟩
  · rw [(hqueue j).2] at hrank
    exact h.processed j rank hrank

/-- A manager goes on, or breaks. -/
theorem Good.setManager (h : Good max w) (hc : c.Sound) (hstill : Still (w.managers m) c)
    (hthread : c.thread = (w.managers m).thread) (href : c.ref_count = (w.managers m).ref_count) :
    Good max (w.setManager m c) := by
  have hpart : ∀ m', Still (w.managers m') ((w.setManager m c).managers m') ∧
      ((w.setManager m c).managers m').thread = (w.managers m').thread ∧
      ((w.setManager m c).managers m').ref_count = (w.managers m').ref_count := by
    intro m'
    rw [managers_setManager]
    split
    · rename_i hm
      rw [hm]
      exact ⟨hstill, hthread, href⟩
    · exact ⟨⟨Onward.refl _, rfl, fun _ => rfl⟩, rfl, rfl⟩
  refine
    { managers := fun m' => ?_
      tracks := h.tracks
      singleton_lt := h.singleton_lt
      alone := fun m' hm' hnone => ?_
      clear := fun m' hm' hnone hclosed => ?_
      sql_linked := fun m' hm' hstream => ?_
      storage_linked := fun m' hm' hstream hstarted => ?_
      processed := fun j rank hrank => ?_ }
  · rw [managers_setManager]
    split
    · exact hc
    · exact h.managers m'
  · rw [(hpart m').2.1] at hnone
    rw [(hpart m').2.2]
    exact h.alone m' hm' hnone
  · rw [(hpart m').2.1] at hnone
    have hempty := (hpart m').1.pushed storage
    rw [h.clear m' hm' hnone hclosed] at hempty
    exact List.length_eq_zero_iff.mp hempty
  · obtain ⟨first, hlink⟩ := h.sql_linked m' hm' hstream
    exact ⟨first, hlink.still (hpart m').1⟩
  · rw [(hpart m').2.1] at hstarted
    obtain ⟨first, hlink⟩ := h.storage_linked m' hm' hstream hstarted
    exact ⟨first, hlink.still (hpart m').1⟩
  · exact (h.processed j rank hrank).mono (le_refl _) fun m' _ => (hpart m').1.toOnward

/-- **A stream is closed.** What was read last may not have been pushed. -/
theorem Good.close_stream (h : Good max w) (hs : Tracks max s)
    (hacked : s.queue.acked = (w.session i).queue.acked) :
    Good max ((w.setSession i s).close_stream i) := by
  have htracks : ∀ j, Tracks max ((w.setSession i s).session j) := by
    intro j
    rw [session_setSession]
    split
    · exact hs
    · exact h.tracks j
  have hranks : ∀ j, ((w.setSession i s).session j).queue.acked = (w.session j).queue.acked := by
    intro j
    rw [session_setSession]
    split
    · rename_i hj
      rw [hj]
      exact hacked
    · rfl
  have hother : ∀ j, ((w.setSession i s).setStream i false).stream j = true →
      w.stream j = true ∧ (w.setSession i s).session j = w.session j := by
    intro j hj
    rw [stream_setStream] at hj
    split at hj
    · cases hj
    · rename_i hne
      exact ⟨hj, by rw [session_setSession, if_neg hne]⟩
  rw [World.close_stream, World.unload]
  cases hsingleton : w.singleton with
  | none =>
    have hnone : ((w.setSession i s).setStream i false).singleton = none := hsingleton
    have hno : ∀ {m}, w.singleton ≠ some m := fun hm =>
      Option.some_ne_none _ (hm.symm.trans hsingleton)
    simp only [hnone]
    exact
      { managers := h.managers
        tracks := htracks
        singleton_lt := fun _ hm => absurd hm hno
        alone := fun _ hm => absurd hm hno
        clear := fun _ hm => absurd hm hno
        sql_linked := fun _ hm => absurd hm hno
        storage_linked := fun _ hm => absurd hm hno
        processed := fun j rank hrank => h.processed j rank (hranks j ▸ hrank) }
  | some m =>
    have hsome : ((w.setSession i s).setStream i false).singleton = some m := hsingleton
    simp only [hsome]
    set c : ConflictManager T :=
      { w.managers m with ref_count := (w.managers m).ref_count - 1 } with hc
    have hstill : Still (w.managers m) c :=
      ⟨⟨fun _ _ _ h => h, fun _ _ h => h⟩, rfl, fun _ => rfl⟩
    have hmanager : ∀ m', ((w.setManager m c).managers m').Sound := by
      intro m'
      rw [managers_setManager]
      split
      · have hold := h.managers m
        exact ⟨hold.inv, hold.ack_nonneg, hold.returned_nonneg, hold.ranks, hold.idle⟩
      · exact h.managers m'
    -- a manager that is left has a thread, for the other stream
    have hleft : ∀ m', (if (w.managers m).ref_count - 1 = 0 then none else some m) = some m' →
        m' = m ∧ (w.setManager m c).managers m' = c ∧ (w.managers m).thread = true := by
      intro m' hm'
      split at hm'
      · cases hm'
      · rename_i hcount
        obtain rfl := Option.some.inj hm'
        refine ⟨rfl, by rw [managers_setManager, if_pos rfl], ?_⟩
        cases hthread : (w.managers m).thread with
        | true => rfl
        | false =>
          have hone := h.alone m hsingleton hthread
          omega
    have hruns : ∀ m', (if (w.managers m).ref_count - 1 = 0 then none else some m) = some m' →
        ((w.setManager m c).managers m').thread = true := by
      intro m' hm'
      obtain ⟨-, hat, hthread⟩ := hleft m' hm'
      rw [hat, hc]
      exact hthread
    exact
      { managers := hmanager
        tracks := htracks
        singleton_lt := fun m' hm' => by
          obtain ⟨rfl, -, -⟩ := hleft m' hm'
          exact h.singleton_lt m' hsingleton
        alone := fun m' hm' hnone => absurd ((hruns m' hm').symm.trans hnone) Bool.noConfusion
        clear := fun m' hm' hnone => absurd ((hruns m' hm').symm.trans hnone) Bool.noConfusion
        sql_linked := fun m' hm' hstream => by
          obtain ⟨rfl, hat, -⟩ := hleft m' hm'
          obtain ⟨hopen, hsession⟩ := hother sql hstream
          obtain ⟨first, hlink⟩ := h.sql_linked m' hsingleton hopen
          refine ⟨first, ?_⟩
          show Linked ((w.setManager m' c).managers m') sql ((w.setSession i s).session sql).queue first
          rw [hat, hsession]
          exact hlink.still hstill
        storage_linked := fun m' hm' hstream _ => by
          obtain ⟨rfl, hat, hthread⟩ := hleft m' hm'
          obtain ⟨hopen, hsession⟩ := hother storage hstream
          obtain ⟨first, hlink⟩ := h.storage_linked m' hsingleton hopen hthread
          refine ⟨first, ?_⟩
          show Linked ((w.setManager m' c).managers m') storage
            ((w.setSession i s).session storage).queue first
          rw [hat, hsession]
          exact hlink.still hstill
        processed := fun j rank hrank => by
          have hold := h.processed j rank (hranks j ▸ hrank)
          exact hold.mono (le_refl _) fun m' _ => onward_setManager hstill.toOnward m' }

theorem Good.close_own (h : Good max w) : Good max (w.close_stream i) := by
  have hclosed := h.close_stream (h.tracks i) rfl
  rwa [World.setSession, Function.update_eq_self] at hclosed

/-- **An sql stream is opened**: it has a manager of its own. -/
theorem Good.open_sql (h : Good max w) :
    Good max (((w.init_sql fun _ => 0).setStream sql true).call max accepts sql .nackEvents) := by
  have hat : ∀ m, ((w.init_sql fun _ => 0).managers m) = if m = w.created then
      { ConflictManager.new (fun _ => 0) with ref_count := 1 } else w.managers m :=
    fun m => managers_setManager w.created m
  have honward : ∀ m < w.created, Onward (w.managers m) ((w.init_sql fun _ => 0).managers m) := by
    intro m hm
    rw [hat, if_neg (Nat.ne_of_lt hm)]
    exact Onward.refl _
  have hsession : ∀ j, (((w.init_sql fun _ => 0).setStream sql true).call max accepts sql
      .nackEvents).session j = if j = sql then (w.session sql).step max (accepts sql) .nackEvents
        else w.session j := fun j => session_setSession sql _ j
  have hacked : ∀ j, ((((w.init_sql fun _ => 0).setStream sql true).call max accepts sql
      .nackEvents).session j).queue.acked = (w.session j).queue.acked := by
    intro j
    rw [hsession]
    split
    · rename_i hj
      rw [hj]
      rfl
    · rfl
  have hnew : ∀ m, some w.created = some m → (w.init_sql fun _ => 0).managers m =
      { ConflictManager.new (fun _ => 0) with ref_count := 1 } := by
    rintro m hm
    rw [hat, if_pos (Option.some.inj hm).symm]
  refine
    { managers := fun m => ?_
      tracks := fun j => ?_
      singleton_lt := fun m hm => ?_
      alone := fun m hm _ => ?_
      clear := fun m hm _ _ => ?_
      sql_linked := fun m hm _ => ⟨(w.session sql).queue.acked, ?_⟩
      storage_linked := fun m hm _ hthread => ?_
      processed := fun j rank hrank => ?_ }
  · show ((w.init_sql fun _ => 0).managers m).Sound
    rw [hat]
    split
    · have hsound : (ConflictManager.new (fun _ => 0) : ConflictManager T).Sound := sound_new
      exact ⟨hsound.inv, hsound.ack_nonneg, hsound.returned_nonneg, hsound.ranks, hsound.idle⟩
    · exact h.managers m
  · rw [hsession]
    split
    · exact tracks_nackEvents (accepts sql) (h.tracks sql)
    · exact h.tracks j
  · obtain rfl := Option.some.inj hm
    exact Nat.lt_succ_self _
  · show ((w.init_sql fun _ => 0).managers m).ref_count = 1
    rw [hnew m hm]
  · show ((w.init_sql fun _ => 0).managers m).sources.pushed storage = []
    rw [hnew m hm]
    rfl
  · rw [hsession, if_pos rfl]
    show Linked ((w.init_sql fun _ => 0).managers m) sql _ _
    rw [hnew m hm]
    exact ⟨rfl, (add_zero _).symm, fun k hk => absurd hk (Nat.not_lt_zero k)⟩
  · have hthread : ((w.init_sql fun _ => 0).managers m).thread = true := hthread
    rw [hnew m hm] at hthread
    cases hthread
  · rw [hacked] at hrank
    exact (h.processed j rank hrank).mono (Nat.le_succ _) honward

/-- **A storage stream is opened** on a manager that no storage stream of its own pushed to. -/
theorem Good.open_storage (h : Good max w) (hm : w.singleton = some m)
    (hthread : (w.managers m).thread = false) (hclosed : w.stream storage = false) :
    Good max (((w.setManager m { w.managers m with
      thread := true
      ref_count := (w.managers m).ref_count + 1 }).setStream storage true).call max accepts storage
        .nackEvents) := by
  set c : ConflictManager T :=
    { w.managers m with thread := true, ref_count := (w.managers m).ref_count + 1 } with hc
  have hstill : Still (w.managers m) c := ⟨⟨fun _ _ _ h => h, fun _ _ h => h⟩, rfl, fun _ => rfl⟩
  have hsession : ∀ j, (((w.setManager m c).setStream storage true).call max accepts storage
      .nackEvents).session j = if j = storage then
        (w.session storage).step max (accepts storage) .nackEvents else w.session j :=
    fun j => session_setSession storage _ j
  have hstarted : ∀ m', w.singleton = some m' → (w.setManager m c).managers m' = c := by
    intro m' hm'
    obtain rfl := Option.some.inj (hm.symm.trans hm')
    rw [managers_setManager, if_pos rfl]
  have hnothing : (w.managers m).sources.pushed storage = [] := h.clear m hm hthread hclosed
  have hold := h.managers m
  refine
    { managers := fun m' => ?_
      tracks := fun j => ?_
      singleton_lt := h.singleton_lt
      alone := fun m' hm' hnone => ?_
      clear := fun m' hm' hnone => ?_
      sql_linked := fun m' hm' hstream => ?_
      storage_linked := fun m' hm' _ _ => ⟨(w.session storage).queue.acked, ?_⟩
      processed := fun j rank hrank => ?_ }
  · show ((w.setManager m c).managers m').Sound
    rw [managers_setManager]
    split
    · exact ⟨hold.inv, hold.ack_nonneg, hold.returned_nonneg, hold.ranks, fun hfalse => by cases hfalse⟩
    · exact h.managers m'
  · rw [hsession]
    split
    · exact tracks_nackEvents (accepts storage) (h.tracks storage)
    · exact h.tracks j
  · have hnone : ((w.setManager m c).managers m').thread = false := hnone
    rw [hstarted m' hm'] at hnone
    cases hnone
  · have hnone : ((w.setManager m c).managers m').thread = false := hnone
    rw [hstarted m' hm'] at hnone
    cases hnone
  · obtain rfl := Option.some.inj (hm.symm.trans hm')
    have hopen : w.stream sql = true := hstream
    obtain ⟨first, hlink⟩ := h.sql_linked m hm hopen
    refine ⟨first, ?_⟩
    rw [hsession, if_neg (by decide)]
    show Linked ((w.setManager m c).managers m) sql _ _
    rw [hstarted m hm]
    exact hlink.still hstill
  · rw [hsession, if_pos rfl]
    show Linked ((w.setManager m c).managers m') storage _ _
    rw [hstarted m' hm']
    have hsum := hold.inv.sum storage
    have hle := hold.inv.removed_le storage
    have hack := hold.ack_nonneg storage
    have hreturned := hold.returned_nonneg storage
    rw [hnothing, List.length_nil] at hle
    rw [Pi.zero_apply] at hsum
    refine ⟨?_, ?_, fun k hk => ?_⟩
    · show _ = _ + ((w.managers m).sources.pushed storage).length
      rw [hnothing]
      rfl
    · show ((w.session storage).queue.acked : ℤ) = _ + (w.managers m).sources.returned storage
      omega
    · have hk : k < ((w.managers m).sources.pushed storage).length := hk
      rw [hnothing] at hk
      exact absurd hk (Nat.not_lt_zero k)
  · have hacked : ((((w.setManager m c).setStream storage true).call max accepts storage
        .nackEvents).session j).queue.acked = (w.session j).queue.acked := by
      rw [hsession]
      split
      · rename_i hj
        rw [hj]
        rfl
      · rfl
    rw [hacked] at hrank
    exact (h.processed j rank hrank).mono (le_refl _) fun m' _ => onward_setManager hstill.toOnward m'

/--
**A stream is told of some of its pushes**, in the queue of the current manager, and after one
more push or not. What it is told is processed.
-/
theorem Good.told (h : Good max w) (hm : w.singleton = some m)
    (hstream : w.stream i = true) (hc : c.Sound) (honward : Onward (w.managers m) c)
    (hthread : c.thread = (w.managers m).thread) (href : c.ref_count = (w.managers m).ref_count)
    (hpushed : ∀ j, j ≠ i → (c.sources.pushed j) = ((w.managers m).sources.pushed j))
    (hreturned : c.sources.returned = Function.update (w.managers m).sources.returned i
      ((w.managers m).sources.returned i + (w.managers m).sources.fifo.ack i))
    (hs : Tracks max s)
    (hcursor : s.queue.cursor + ((w.managers m).sources.pushed i).length =
      (w.session i).queue.cursor + (c.sources.pushed i).length)
    (hgrows : (w.session i).queue.cursor ≤ s.queue.cursor)
    (hacked : s.queue.acked = min ((w.session i).queue.acked +
      ((w.managers m).sources.fifo.ack i).toNat) s.queue.cursor)
    (hranks : ∀ k, ((w.managers m).sources.pushed i).length ≤ k → k < (c.sources.pushed i).length →
      (c.ranks i)[k]? = some ((w.session i).queue.cursor + (k - ((w.managers m).sources.pushed i).length))) :
    Good max ((w.setManager m c).setSession i s) := by
  have hold := h.managers m
  have hacks := h.acknowledged hm hstream hgrows
  rw [← hacked] at hacks
  have hat : ∀ m', ((w.setManager m c).managers m').thread = (w.managers m').thread ∧
      ((w.setManager m c).managers m').ref_count = (w.managers m').ref_count := by
    intro m'
    rw [managers_setManager]
    split
    · rename_i hm'
      rw [hm']
      exact ⟨hthread, href⟩
    · exact ⟨rfl, rfl⟩
  -- the stream that is told, or the other one
  have hlinked : ∀ j first, Linked (w.managers m) j (w.session j).queue first →
      Linked c j (((w.setManager m c).setSession i s).session j).queue first := by
    intro j first hlink
    rw [session_setSession]
    split
    · rename_i hj
      subst hj
      have hmin := hlink.acknowledge hold hgrows
      have hsum := hold.inv.sum j
      have hcur := hlink.cursor
      rw [Pi.zero_apply] at hsum
      refine ⟨by omega, ?_, fun k hk => ?_⟩
      · rw [hacked, hmin, hreturned, Function.update_self]
        omega
      · by_cases hlt : k < ((w.managers m).sources.pushed j).length
        · exact honward.ranks j k _ (hlink.ranks k hlt)
        · rw [hranks k (not_lt.mp hlt) hk]
          exact congrArg some (by omega)
    · rename_i hj
      refine ⟨?_, ?_, fun k hk => ?_⟩
      · rw [hpushed j hj]
        exact hlink.cursor
      · rw [hreturned, Function.update_of_ne hj]
        exact hlink.acked
      · rw [hpushed j hj] at hk
        exact honward.ranks j k _ (hlink.ranks k hk)
  have hself : (w.setManager m c).managers m = c := by rw [managers_setManager, if_pos rfl]
  refine
    { managers := fun m' => ?_
      tracks := fun j => ?_
      singleton_lt := h.singleton_lt
      alone := fun m' hm' hnone => ?_
      clear := fun m' hm' hnone hclosed => ?_
      sql_linked := fun m' hm' hopen => ?_
      storage_linked := fun m' hm' hopen hstarted => ?_
      processed := fun j rank hrank => ?_ }
  · show ((w.setManager m c).managers m').Sound
    rw [managers_setManager]
    split
    · exact hc
    · exact h.managers m'
  · rw [session_setSession]
    split
    · exact hs
    · exact h.tracks j
  · have hnone : ((w.setManager m c).managers m').thread = false := hnone
    show ((w.setManager m c).managers m').ref_count = 1
    rw [(hat m').1] at hnone
    rw [(hat m').2]
    exact h.alone m' hm' hnone
  · have hnone : ((w.setManager m c).managers m').thread = false := hnone
    rw [(hat m').1] at hnone
    obtain rfl := Option.some.inj (hm.symm.trans hm')
    show ((w.setManager m c).managers m).sources.pushed storage = []
    have hne : storage ≠ i := by
      rintro rfl
      exact absurd (hstream.symm.trans hclosed) Bool.noConfusion
    rw [hself, hpushed storage hne]
    exact h.clear m hm hnone hclosed
  · obtain rfl := Option.some.inj (hm.symm.trans hm')
    obtain ⟨first, hlink⟩ := h.sql_linked m hm hopen
    refine ⟨first, ?_⟩
    show Linked ((w.setManager m c).managers m) sql _ _
    rw [hself]
    exact hlinked sql first hlink
  · obtain rfl := Option.some.inj (hm.symm.trans hm')
    have hstarted : ((w.setManager m c).managers m).thread = true := hstarted
    rw [(hat m).1] at hstarted
    obtain ⟨first, hlink⟩ := h.storage_linked m hm hopen hstarted
    refine ⟨first, ?_⟩
    show Linked ((w.setManager m c).managers m) storage _ _
    rw [hself]
    exact hlinked storage first hlink
  · have hprocessed : Processed w j rank := by
      rw [session_setSession] at hrank
      split at hrank
      · rename_i hj
        subst hj
        exact hacks rank hrank
      · exact h.processed j rank hrank
    exact hprocessed.mono (le_refl _) fun m' _ => onward_setManager honward m'

omit [LawfulQueueFile F] in
theorem call_setManager_call (i : Fin 2) (op op' : Multiplexing.Op T) (m : ℕ) :
    ((w.call max accepts i op).setManager m c).call max accepts i op' =
      (w.setManager m c).setSession i
        (((w.session i).step max (accepts i) op).step max (accepts i) op') := by
  have hsession : ((w.call max accepts i op).setManager m c).session i =
      (w.session i).step max (accepts i) op := Function.update_self _ _ _
  rw [World.call, hsession]
  have hupdate : Function.update (Function.update w.session i ((w.session i).step max (accepts i) op))
      i (((w.session i).step max (accepts i) op).step max (accepts i) op') =
      Function.update w.session i (((w.session i).step max (accepts i) op).step max (accepts i) op') :=
    Function.update_idem _ _ _
  show (⟨_, _, _, Function.update (Function.update w.session i _) i _, _⟩ : World F T D) = _
  rw [hupdate]
  rfl

theorem Good.deliver (h : Good max w) {timed_out : Bool} {address : ℕ}
    (hstep : w.deliver max accepts i timed_out address = some w') : Good max w' := by
  rw [World.deliver] at hstep
  split at hstep
  · rename_i hstream
    have htracks := tracks_read (accepts i) (h.tracks i) timed_out
    cases hevent : (read timed_out (w.session i).muxer).1.1 with
    | none =>
      simp only [hevent] at hstep
      obtain rfl := Option.some.inj hstep
      rw [read_event] at hevent
      have hsame := step_read_none max (accepts i) timed_out hevent
      refine h.setSession htracks ?_ ?_
      · rw [hsame]
      · rw [hsame]
    | some e =>
      rw [read_event] at hevent
      have hnext := next_of_read (h.tracks i) hevent
      obtain ⟨-, -, hacked, hcursor⟩ := AckQueue.deliver_of_next hnext
      have hread := step_read_some max (accepts i) timed_out hevent
      have hqueue : ((w.session i).step max (accepts i) (.read timed_out)).queue =
          (w.session i).queue.deliver := by rw [hread]
      rw [← read_event timed_out] at hevent
      cases hsingleton : w.singleton with
      | none =>
        have hnone : (w.call max accepts i (.read timed_out)).singleton = none := hsingleton
        simp only [hevent, hnone] at hstep
        cases hstep
      | some m =>
        have hsome : (w.call max accepts i (.read timed_out)).singleton = some m := hsingleton
        have hmanager : (w.call max accepts i (.read timed_out)).managers m = w.managers m := rfl
        simp only [hevent, hsome, hmanager] at hstep
        split at hstep
        · obtain rfl := Option.some.inj hstep
          exact h.close_stream htracks (by rw [hqueue, hacked])
        · obtain ⟨sources, hpush, rfl⟩ := Option.map_eq_some_iff.mp hstep
          obtain ⟨hc, hpushed, hreturned⟩ :=
            (h.managers m).push (w.session i).queue.cursor hpush
          rw [call_setManager_call]
          have hlength : (sources.pushed i).length =
              ((w.managers m).sources.pushed i).length + 1 := by
            rw [hpushed, Function.update_self, List.length_append]
            rfl
          have hrank : (w.managers m).ranks i ++ [(w.session i).queue.cursor] =
              Function.update (w.managers m).ranks i
                ((w.managers m).ranks i ++ [(w.session i).queue.cursor]) i := by
            rw [Function.update_self]
          refine h.told hsingleton hstream hc ⟨fun j k r hk => ?_, fun j k hk => ?_⟩ rfl rfl
            (fun j hj => ?_) hreturned (tracks_ackEvents (accepts i) htracks _) ?_ ?_ ?_ ?_
          · show (Function.update (w.managers m).ranks i _ j)[k]? = some r
            rw [Sources.update_append, List.getElem?_append_left (List.getElem?_eq_some_iff.mp hk).1]
            exact hk
          · show (sources.pushed j)[k]? = some true
            rw [hpushed, Sources.update_append,
              List.getElem?_append_left (List.getElem?_eq_some_iff.mp hk).1]
            exact hk
          · show sources.pushed j = _
            rw [hpushed, Function.update_of_ne hj]
          · show ((w.session i).step max (accepts i) (.read timed_out)).queue.cursor + _ =
              _ + (sources.pushed i).length
            rw [hqueue, hcursor, hlength]
            omega
          · show _ ≤ ((w.session i).step max (accepts i) (.read timed_out)).queue.cursor
            rw [hqueue, hcursor]
            exact Nat.le_succ _
          · show min (((w.session i).step max (accepts i) (.read timed_out)).queue.acked + _)
              ((w.session i).step max (accepts i) (.read timed_out)).queue.cursor = min _
                ((w.session i).step max (accepts i) (.read timed_out)).queue.cursor
            rw [hqueue, hacked]
          · intro k hle hlt
            have hlt : k < (sources.pushed i).length := hlt
            have hk : k = ((w.managers m).ranks i).length := by
              rw [(h.managers m).ranks i]
              omega
            show (Function.update (w.managers m).ranks i _ i)[k]? = _
            rw [← hrank, hk, List.getElem?_append_right (le_refl _), Nat.sub_self,
              (h.managers m).ranks i, Nat.sub_self]
            rfl
  · cases hstep

theorem Good.flush (h : Good max w) (hstep : w.flush max accepts i = some w') :
    Good max w' := by
  rw [World.flush] at hstep
  split at hstep
  · rename_i hstream
    cases hsingleton : w.singleton with
    | none =>
      simp only [hsingleton] at hstep
      cases hstep
    | some m =>
      simp only [hsingleton] at hstep
      split at hstep
      · obtain rfl := Option.some.inj hstep
        exact h.close_own
      · obtain rfl := Option.some.inj hstep
        refine h.told hsingleton hstream ((h.managers m).get_acks i)
          ⟨fun _ _ _ h => h, fun _ _ h => h⟩ rfl rfl (fun _ _ => rfl) rfl
          (tracks_ackEvents (accepts i) (h.tracks i) _) rfl (le_refl _) rfl fun k hle hlt => ?_
        have hlt : k < ((w.managers m).sources.pushed i).length := hlt
        omega
  · cases hstep

/-- No manager is made with something in `_ack`. -/
def Action.Zeroed : Action T → Prop
  | .open_stream i ack => i = sql → ack = fun _ => 0
  | _ => True

theorem Good.step (h : Good max w) {a : Action T} (ha : a.Zeroed)
    (hstep : w.step max accepts a = some w') : Good max w' := by
  cases a with
  | publish i event =>
    obtain rfl := Option.some.inj hstep
    refine h.setSession (tracks_publish (accepts i) (h.tracks i) event) ?_ ?_
    · cases event with
      | none => rfl
      | some e =>
        simp only [Session.step]
        split <;> rfl
    · cases event with
      | none => rfl
      | some e =>
        simp only [Session.step]
        split <;> rfl
  | open_stream i ack =>
    have hstep : w.open_stream max accepts i ack = some w' := hstep
    rw [World.open_stream] at hstep
    split at hstep
    · cases hstep
    · rename_i hclosed
      obtain ⟨w₁, hinit, rfl⟩ := Option.map_eq_some_iff.mp hstep
      split at hinit
      · rename_i hi
        subst hi
        obtain rfl := Option.some.inj hinit
        rw [ha rfl]
        exact h.open_sql
      · rename_i hi
        obtain rfl := eq_storage i hi
        rw [World.init_storage] at hinit
        cases hsingleton : w.singleton with
        | none =>
          simp only [hsingleton] at hinit
          cases hinit
        | some m =>
          simp only [hsingleton] at hinit
          split at hinit
          · cases hinit
          · rename_i hthread
            obtain rfl := Option.some.inj hinit
            exact h.open_storage hsingleton (Bool.eq_false_of_not_eq_true hthread)
              (Bool.eq_false_of_not_eq_true hclosed)
  | close_stream i =>
    simp only [World.step] at hstep
    split at hstep
    · obtain rfl := Option.some.inj hstep
      exact h.close_own
    · cases hstep
  | deliver i timed_out address => exact h.deliver hstep
  | flush i => exact h.flush hstep
  | breaks m =>
    obtain rfl := Option.some.inj hstep
    have hold := h.managers m
    exact h.setManager ⟨hold.inv, hold.ack_nonneg, hold.returned_nonneg, hold.ranks, hold.idle⟩
      ⟨⟨fun _ _ _ h => h, fun _ _ h => h⟩, rfl, fun _ => rfl⟩ rfl rfl
  | work m op =>
    have hstep : w.work m op = some w' := hstep
    rw [World.work] at hstep
    split at hstep
    · rename_i hthread
      obtain ⟨sources, hsources, rfl⟩ := Option.map_eq_some_iff.mp hstep
      obtain ⟨hc, honward, hreturned, hpushed⟩ := (h.managers m).work hsources hthread
      exact h.setManager hc ⟨honward, hreturned, hpushed⟩ rfl rfl
    · cases hstep

theorem Good.run (h : Good max w) {as : List (Action T)} (has : ∀ a ∈ as, a.Zeroed)
    (hrun : World.run max accepts as w = some w') : Good max w' := by
  induction as generalizing w with
  | nil =>
    obtain rfl := Option.some.inj hrun
    exact h
  | cons a as ih =>
    obtain ⟨w₁, hstep, hrun⟩ := Option.bind_eq_some_iff.mp hrun
    exact ih (h.step (has a List.mem_cons_self) hstep)
      (fun a' ha' => has a' (List.mem_cons_of_mem a ha')) hrun

theorem good_start {session : Fin 2 → Session F T D} (hs : ∀ i, Tracks max (session i))
    (hacked : ∀ i, (session i).queue.acked = 0) : Good max (World.start session) where
  managers _ := sound_new
  tracks := hs
  singleton_lt m hm := by cases hm
  alone m hm := by cases hm
  clear m hm := by cases hm
  sql_linked m hm := by cases hm
  storage_linked m hm := by cases hm
  processed i rank hrank := by
    have hrank : rank < (session i).queue.acked := hrank
    rw [hacked] at hrank
    exact absurd hrank (Nat.not_lt_zero rank)

/-! ## What is removed from a muxer -/

/-- All that a muxer removed is processed, and it has the rest. -/
structure AcksSafe (max : ℕ) (w : World F T D) : Prop where
  processed : ∀ i rank, rank < (w.session i).queue.acked → Processed w i rank
  kept : ∀ i, Tracks max (w.session i)

/--
**Nothing that is not processed is acknowledged**, however the two streams are closed and opened
again, if no manager is made with something in `_ack`.
-/
theorem reopened_acksSafe (max : ℕ) (accepts : Fin 2 → T → Bool) (persistent : Fin 2 → Bool)
    (memory queue : Fin 2 → D) (ms qs : Fin 2 → List T)
    (hm : ∀ i, LawfulQueueFile.Stored F (memory i) (ms i))
    (hq : ∀ i, LawfulQueueFile.Stored F (queue i) (qs i))
    {as : List (Action T)} (has : ∀ a ∈ as, a.Zeroed) {w : World F T D}
    (hrun : World.run max accepts as (World.start fun i =>
      Session.start max (persistent i) (memory i) (queue i)
        ((if persistent i then ms i else []) ++ qs i)) = some w) : AcksSafe max w := by
  have hstart := good_start (fun i => tracks_start (F := F) max (persistent i) (hm i) (hq i))
    (fun _ => rfl)
  have hgood := hstart.run has hrun
  exact ⟨hgood.processed, hgood.tracks⟩

end

/-- Two streams, one event that is acknowledged, and an sql stream that is closed and opened again
before the next one is processed. -/
def reopened : List (Action Char) :=
  [.open_stream sql fun _ => 0, .open_stream storage fun _ => 0, .publish sql (some 'a'),
    .deliver sql false 10, .work 0 .first_events, .work 0 (.process 0), .work 0 (.clean sql),
    .flush sql, .publish sql (some 'b'), .deliver sql false 11, .close_stream sql,
    .open_stream sql fun _ => 0, .deliver sql false 12, .work 0 .first_events, .flush sql]

theorem reopened_acksSafe_reopened : ∃ w : World (List Char) Char (List Char),
    World.run 5 (fun _ _ => true) reopened
      (World.start fun _ => Session.start 5 true [] [] []) = some w ∧
      (w.session sql).queue.acked = 1 ∧ AcksSafe 5 w := by
  have hzero : ∀ a ∈ reopened, a.Zeroed := by
    intro a ha
    simp only [reopened, List.mem_cons, List.not_mem_nil, or_false] at ha
    rcases ha with rfl | rfl | rfl | rfl | rfl | rfl | rfl | rfl | rfl | rfl | rfl | rfl | rfl |
      rfl | rfl <;>
      first
      | exact fun _ => rfl
      | exact trivial
  have hacked : (World.run 5 (fun _ _ => true) reopened (World.start fun _ =>
      Session.start 5 true ([] : List Char) [] [])).map (fun w : World (List Char) Char (List Char) =>
        (w.session sql).queue.acked) = some 1 := by decide +kernel
  obtain ⟨w, hrun, hone⟩ := Option.map_eq_some_iff.mp hacked
  exact ⟨w, hrun, hone, reopened_acksSafe 5 (fun _ _ => true) (fun _ => true) (fun _ => [])
    (fun _ => []) (fun _ => []) (fun _ => []) (fun _ => rfl) (fun _ => rfl) hzero hrun⟩

/-- The memory of a new manager had a 7 where `_ack` is: the first push is told of seven events. -/
theorem not_reopened_acksSafe : ¬∀ (as : List (Action Char))
    (w : World (List Char) Char (List Char)),
    World.run 5 (fun _ _ => true) as (World.start fun _ => Session.start 5 true [] [] []) = some w →
      AcksSafe 5 w := by
  intro h
  let as : List (Action Char) :=
    [.open_stream sql fun _ => 7, .publish sql (some 'a'), .deliver sql false 10]
  have hrun : (World.run 5 (fun _ _ => true) as (World.start fun _ =>
      Session.start 5 true ([] : List Char) [] [])).map (fun w : World (List Char) Char (List Char) =>
        ((w.session sql).queue.acked, w.created, (w.managers 0).sources.pushed sql)) =
      some (1, 1, [false]) := by decide +kernel
  obtain ⟨w, hw, heq⟩ := Option.map_eq_some_iff.mp hrun
  obtain ⟨hacked, hcreated, hpushed⟩ : (w.session sql).queue.acked = 1 ∧ w.created = 1 ∧
      (w.managers 0).sources.pushed sql = [false] := by simpa only [Prod.mk.injEq] using heq
  obtain ⟨m, hm, k, -, hdone⟩ := (h as w hw).processed sql 0 (hacked ▸ Nat.zero_lt_one)
  rw [hcreated] at hm
  obtain rfl : m = 0 := Nat.lt_one_iff.mp hm
  -- its only push is not processed
  rw [hpushed] at hdone
  cases k with
  | zero => cases hdone
  | succ k => cases hdone

end CentreonBroker.Storage.Reopening
