import CentreonBroker.PersistentCache

/-!
# What is saved in the persistent cache

Its users write all they have in one transaction when they end, and read it when they are there
again, one event after the other until there is none.
-/

namespace CentreonBroker.PersistentCache

variable {α : Type}

/-- The calls of a user that saves these events. -/
def saving (events : List α) : List (Op α) := .transaction :: (events.map .add ++ [.commit none])

/-- The user saves these events, ends, and is there again. -/
def savingAndOpening (events : List α) : List (Op α) :=
  .construct :: (saving events ++ [.destroy, .construct])

/-- What a call of `get` gives. -/
def Reply.given : Reply α → Option α
  | .event e => e
  | _ => none

variable [EventCodec α]

/-- Each event that is read is handled, until there is none, if it ends within so many turns. -/
def readAll {σ : Type} (handle : σ → α → σ) : Nat → State α → σ → Option σ
  | 0, _, _ => none
  | turns + 1, s, x =>
    match (step .get s).1.given with
    | none => some x
    | some e => readAll handle turns (step .get s).2 (handle x e)

variable {s : State α} {l : List α}

/-- What is still to be read is what an object gives. -/
theorem given_get {o : Opened α} (h : Holds s ⟨l, some o⟩) :
    (step .get s).1.given = (o.unread.getD l).head? ∧
      Holds (step .get s).2 ⟨l, some { o with unread := some (o.unread.getD l).tail }⟩ := by
  obtain ⟨replaced, hreply, hstep⟩ := @step_holds _ _ _ _ h .get nofun
  refine ⟨?_, hstep⟩
  rw [← hreply]
  rfl

/-- All events are read, in their order. -/
theorem readAll_eq {σ : Type} (handle : σ → α → σ) {unread : List α}
    {o : Opened α} (h : Holds s ⟨l, some o⟩) (hunread : o.unread.getD l = unread) (x : σ) :
    readAll handle (unread.length + 1) s x = some (unread.foldl handle x) := by
  induction unread generalizing s o x with
  | nil =>
    obtain ⟨hgiven, -⟩ := given_get h
    rw [hunread, List.head?_nil] at hgiven
    rw [readAll, hgiven]
    rfl
  | cons e unread ih =>
    obtain ⟨hgiven, hnext⟩ := given_get h
    rw [hunread, List.head?_cons] at hgiven
    rw [hunread, List.tail_cons] at hnext
    rw [List.length_cons, readAll, hgiven]
    exact ih hnext rfl (handle x e)

theorem run_append (ops ops' : List (Op α)) (s : State α) :
    (run (ops ++ ops') s).2 = (run ops' (run ops s).2).2 := by
  induction ops generalizing s with
  | nil => rfl
  | cons op ops ih => exact ih _

theorem run_adds {es : List α} {unread : Option (List α)}
    (h : Holds s ⟨l, some ⟨unread, some es⟩⟩) (events : List α) :
    Holds (run (events.map .add) s).2 ⟨l, some ⟨unread, some (es ++ events)⟩⟩ := by
  induction events generalizing s es with
  | nil => exact (List.append_nil es).symm ▸ h
  | cons e events ih =>
    obtain ⟨replaced, -, hstep⟩ := @step_holds _ _ _ _ h (.add e) nofun
    have hrest := ih hstep
    rw [List.append_assoc] at hrest
    exact hrest

/-- Saving replaces what the cache holds. -/
theorem run_saving {unread : Option (List α)}
    (h : Holds s ⟨l, some ⟨unread, none⟩⟩) (hfresh : Fresh s.fs) (events : List α) :
    Holds (run (saving events) s).2 ⟨events, some ⟨none, none⟩⟩ := by
  obtain ⟨replaced, -, hbegin⟩ := @step_holds _ _ _ _ h .transaction fun _ _ _ _ => hfresh
  have hadds : Holds (run (events.map .add) (step .transaction s).2).2
      ⟨l, some ⟨unread, some events⟩⟩ := run_adds hbegin events
  obtain ⟨replaced, -, hcommit⟩ := @step_holds _ _ _ _ hadds (.commit none) nofun
  have hrun : (run (saving events) s).2 =
      (step (.commit none) (run (events.map .add) (step .transaction s).2).2).2 := by
    show (run (events.map .add ++ [.commit none]) (step .transaction s).2).2 = _
    rw [run_append]
    rfl
  rw [hrun]
  exact hcommit

/-- **What is saved is what is there to be read**, when no transaction was left over. -/
theorem run_savingAndOpening {fs : Files Name} (hfresh : Fresh fs) (events : List α) :
    Holds (run (savingAndOpening events) ⟨fs, none⟩).2 ⟨events, some ⟨some events, none⟩⟩ := by
  have hopen : Holds (step .construct ⟨fs, none⟩).2
      ⟨stored fs, some ⟨some (stored fs : List α), none⟩⟩ := construct_holds rfl
  have hfresh' : Fresh (step (.construct : Op α) ⟨fs, none⟩).2.fs := by
    obtain ⟨-, -, hnew, -⟩ := openRead_spec (α := α) fs
    intro b hb
    exact hfresh b (hnew ▸ hb)
  have hsaved := run_saving hopen hfresh' events
  obtain ⟨replaced, -, hdestroy⟩ := @step_holds _ _ _ _ hsaved .destroy nofun
  obtain ⟨replaced', -, hagain⟩ := @step_holds _ _ _ _ hdestroy .construct nofun
  have hrun : (run (savingAndOpening events) ⟨fs, none⟩).2 = (step .construct
      (step .destroy (run (saving events) (step .construct ⟨fs, none⟩).2).2).2).2 := by
    show (run (saving events ++ [.destroy, .construct]) (step .construct ⟨fs, none⟩).2).2 = _
    rw [run_append]
    rfl
  rw [hrun]
  exact hagain

end CentreonBroker.PersistentCache
