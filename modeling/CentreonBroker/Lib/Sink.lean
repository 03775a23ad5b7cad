import Mathlib.Data.List.Basic
import Mathlib.Tactic.Cases

/-!
# Acknowledged output

A sink is a stream that events are written to: their data is put in an output, which is sent
later, and the events are acknowledged by the number that a call returns. The books of a run
keep what was returned, and what was put out for each event. They are settled when each event
is acknowledged or pending, and when all that was put out for the acknowledged events is sent.
A run whose calls are fair leaves settled books.
-/

namespace CentreonBroker

structure Sink (α σ D : Type) where
  write : α → σ → Option (ℕ × σ)
  flush : σ → Option (ℕ × σ)
  /-- How many events wait for their acknowledgement. -/
  pending : σ → ℕ
  /-- All that was put out, in order. -/
  output : σ → List D
  sent : σ → List D

namespace Sink

inductive Call (α : Type) where
  | write (data : α)
  | flush

/-- How many events come with a call. -/
def Call.events {α : Type} : Call α → ℕ
  | .write _ => 1
  | .flush => 0

structure Books (D : Type) where
  returned : ℕ
  /-- What was put out for each of the events. -/
  entries : List (List D)

variable {α σ D : Type} (k : Sink α σ D)

def Books.new : Books D := ⟨0, []⟩

def call : Call α → σ → Option (ℕ × σ)
  | .write data => k.write data
  | .flush => k.flush

/-- What was put out from a state to another. -/
def added (s s' : σ) : List D := (k.output s').drop (k.output s).length

def record (c : Call α) (s : σ) (n : ℕ) (s' : σ) (b : Books D) : Books D :=
  ⟨b.returned + n, match c with
    | .write _ => b.entries ++ [k.added s s']
    | .flush => b.entries⟩

/-- Calls, none of which throws. -/
def run : List (Call α) → σ → Books D → Option (σ × Books D)
  | [], s, b => some (s, b)
  | c :: calls, s, b => (k.call c s).bind fun r => run calls r.2 (k.record c s r.1 r.2 b)

structure Settled (s : σ) (b : Books D) : Prop where
  balanced : b.returned + k.pending s = b.entries.length
  covered : (b.entries.take b.returned).flatten <+: k.sent s

/-- No more is acknowledged than was written. -/
theorem Settled.returned_le {k : Sink α σ D} {s : σ} {b : Books D} (h : k.Settled s b) :
    b.returned ≤ b.entries.length := h.balanced ▸ Nat.le_add_right ..

/-- What is asked of a call, that returns `n`. -/
structure Fair (c : Call α) (s : σ) (n : ℕ) (s' : σ) : Prop where
  count : n + k.pending s' = k.pending s + c.events
  output : k.output s <+: k.output s'
  flushed : c.events = 0 → k.output s' = k.output s
  sent : k.sent s <+: k.sent s'
  bounded : k.sent s' <+: k.output s'
  settles : n ≠ 0 → k.sent s' = k.output s'

/-- A condition holds before each call of a run. -/
def Always (p : Call α → σ → Prop) : List (Call α) → σ → Prop
  | [], _ => True
  | c :: calls, s => p c s ∧ ∀ r ∈ k.call c s, Always p calls r.2

/-- Where a condition holds, the calls are fair, and they keep an invariant. -/
structure Law (inv : σ → Prop) (p : Call α → σ → Prop) : Prop where
  fair : ∀ {c s n s'}, inv s → p c s → k.call c s = some (n, s') → k.Fair c s n s'
  kept : ∀ {c s n s'}, inv s → p c s → k.call c s = some (n, s') → inv s'

theorem always_of_forall {p : Call α → σ → Prop} (h : ∀ c s, p c s) (calls : List (Call α))
    (s : σ) : k.Always p calls s := by
  induction calls generalizing s with
  | nil => trivial
  | cons c calls ih => exact ⟨h c s, fun r _ => ih r.2⟩

variable {k} {c : Call α} {s s' : σ} {n : ℕ} {b : Books D}

theorem output_eq_append_added (h : k.output s <+: k.output s') :
    k.output s' = k.output s ++ k.added s s' := by
  obtain ⟨l, hl⟩ := h
  unfold added
  rw [← hl, List.drop_left]

/-- A write that only puts data out. -/
theorem Fair.keep {data : α} (hpending : k.pending s' = k.pending s + 1)
    (houtput : k.output s <+: k.output s') (hsent : k.sent s' = k.sent s)
    (hbounded : k.sent s <+: k.output s) : k.Fair (.write data) s 0 s' where
  count := by rw [hpending, Nat.zero_add]; rfl
  output := houtput
  flushed h := absurd h Nat.one_ne_zero
  sent := ⟨[], (List.append_nil _).trans hsent.symm⟩
  bounded := hsent ▸ hbounded.trans houtput
  settles h := absurd rfl h

/-- A write that puts data out, then flushes. -/
theorem Fair.flushed_write {data : α} {s₁ : σ} (hpending : k.pending s₁ = k.pending s + 1)
    (houtput : k.output s <+: k.output s₁) (hsent : k.sent s₁ = k.sent s)
    (h : k.Fair .flush s₁ n s') : k.Fair (.write data) s n s' where
  count := h.count.trans hpending
  output := by rw [h.flushed rfl]; exact houtput
  flushed h := absurd h Nat.one_ne_zero
  sent := hsent ▸ h.sent
  bounded := h.bounded
  settles := h.settles

/-- The output is what the entries say. -/
theorem Fair.entries (h : k.Fair c s n s') (hb : b.entries.flatten = k.output s) :
    (k.record c s n s' b).entries.flatten = k.output s' := by
  cases c with
  | write data =>
    show (b.entries ++ [k.added s s']).flatten = _
    rw [List.flatten_append, hb, List.flatten_singleton, output_eq_append_added h.output]
  | flush => exact hb.trans (h.flushed rfl).symm

theorem Fair.settled (h : k.Fair c s n s') (hs : k.Settled s b)
    (hb : b.entries.flatten = k.output s) : k.Settled s' (k.record c s n s' b) := by
  have hentries := h.entries hb
  have hlength : (k.record c s n s' b).entries.length = b.entries.length + c.events := by
    cases c with
    | write data => exact List.length_append
    | flush => rfl
  have hreturned : (k.record c s n s' b).returned = b.returned + n := rfl
  have hcount := h.count
  have hbalanced := hs.balanced
  refine ⟨by omega, ?_⟩
  by_cases hn : n = 0
  · -- nothing more is acknowledged
    have htake : (k.record c s n s' b).entries.take (b.returned + n) =
        b.entries.take b.returned := by
      rw [hn, Nat.add_zero]
      cases c with
      | write data => exact List.take_append_of_le_length (by omega)
      | flush => rfl
    rw [hreturned, htake]
    exact hs.covered.trans h.sent
  · rw [h.settles hn, ← hentries]
    exact ⟨(List.drop _ _).flatten, by rw [← List.flatten_append, List.take_append_drop]⟩

theorem Law.run_settled {inv : σ → Prop} {p : Call α → σ → Prop} (law : k.Law inv p)
    {calls : List (Call α)} (hinv : inv s) (hp : k.Always p calls s) (hs : k.Settled s b)
    (hb : b.entries.flatten = k.output s) {b' : Books D} (hrun : k.run calls s b = some (s', b')) :
    k.Settled s' b' := by
  induction calls generalizing s b with
  | nil =>
    cases hrun
    exact hs
  | cons c calls ih =>
    obtain ⟨⟨n, s₁⟩, hcall, hrun⟩ := Option.bind_eq_some_iff.mp hrun
    have hfair := law.fair hinv hp.1 hcall
    exact ih (law.kept hinv hp.1 hcall) (hp.2 _ hcall) (hfair.settled hs hb) (hfair.entries hb) hrun

/-- From a state that nothing was written to, the books are settled after each call. -/
theorem Law.settled {inv : σ → Prop} {p : Call α → σ → Prop} (law : k.Law inv p)
    {calls : List (Call α)} (hinv : inv s) (hpending : k.pending s = 0) (houtput : k.output s = [])
    (hp : k.Always p calls s) {b' : Books D} (hrun : k.run calls s Books.new = some (s', b')) :
    k.Settled s' b' := by
  have hs : k.Settled s Books.new := by
    refine ⟨by rw [hpending]; rfl, ?_⟩
    show [] <+: k.sent s
    exact List.nil_prefix
  exact law.run_settled hinv hp hs houtput.symm hrun

end Sink

end CentreonBroker
