import Mathlib.Data.List.Basic
import Mathlib.Data.List.Induction
import Mathlib.Tactic.Cases

/-!
# Cyclic redundancy checks

A register that is shifted for each bit of a text, least significant bit first. It is linear in the
register and in the text, so that a text and one that was altered leave the same register exactly
when what differs between them, as a text of its own, leaves zero behind zero.

Where the generator has its last bit, that is no burst as long as the register, and no two bits that
are near enough; where it has an odd number of bits as well, no odd number of bits.
-/

namespace CentreonBroker.Crc

open BitVec

variable {w : ℕ} {p : BitVec w}

/-- One bit goes into the register. -/
def step (p r : BitVec w) (b : Bool) : BitVec w :=
  if r.getLsbD 0 ^^ b then (r >>> 1) ^^^ p else r >>> 1

def run (p r : BitVec w) (bits : List Bool) : BitVec w := bits.foldl (step p) r

theorem run_append (p r : BitVec w) (xs ys : List Bool) :
    run p r (xs ++ ys) = run p (run p r xs) ys := List.foldl_append

/-! ## Linearity -/

theorem step_xor (p r r' : BitVec w) (b b' : Bool) :
    step p (r ^^^ r') (b ^^ b') = step p r b ^^^ step p r' b' := by
  have hcancel : r >>> 1 ^^^ p ^^^ (r' >>> 1 ^^^ p) = r >>> 1 ^^^ r' >>> 1 := by
    rw [BitVec.xor_assoc, BitVec.xor_comm p, BitVec.xor_assoc, BitVec.xor_self, BitVec.xor_zero]
  have hleft : r >>> 1 ^^^ p ^^^ r' >>> 1 = r >>> 1 ^^^ r' >>> 1 ^^^ p := by
    rw [BitVec.xor_assoc, BitVec.xor_comm p, BitVec.xor_assoc]
  unfold step
  rw [getLsbD_xor, ushiftRight_xor_distrib]
  cases r.getLsbD 0 <;> cases r'.getLsbD 0 <;> cases b <;> cases b' <;>
    simp [hcancel, hleft, BitVec.xor_assoc]

/-- What differs between two texts. -/
def errors (xs ys : List Bool) : List Bool := List.zipWith (· ^^ ·) xs ys

theorem run_errors (p : BitVec w) {xs ys : List Bool} (h : xs.length = ys.length)
    (r r' : BitVec w) : run p (r ^^^ r') (errors xs ys) = run p r xs ^^^ run p r' ys := by
  induction xs generalizing ys r r' with
  | nil =>
    obtain rfl := List.length_eq_zero_iff.mp h.symm
    rfl
  | cons x xs ih =>
    obtain ⟨y, ys, rfl⟩ := List.exists_cons_of_length_eq_add_one h.symm
    show run p (step p (r ^^^ r') (x ^^ y)) (errors xs ys) = _
    rw [step_xor, ih (Nat.succ.inj h)]
    rfl

/-- **Two texts leave one register** exactly when their difference leaves nothing. -/
theorem run_eq_iff (p : BitVec w) {xs ys : List Bool} (h : xs.length = ys.length) (r : BitVec w) :
    run p r xs = run p r ys ↔ run p 0 (errors xs ys) = 0 := by
  have herrors := run_errors p h r r
  rw [BitVec.xor_self] at herrors
  rw [show (0 : BitVec w) = 0#w from rfl, herrors, BitVec.xor_eq_zero_iff]

/-- A register into which its own bits go is only shifted. -/
theorem run_own (p r : BitVec w) (n : ℕ) :
    run p r ((List.range n).map r.getLsbD) = r >>> n := by
  induction n with
  | zero => exact (ushiftRight_zero r).symm
  | succ n ih =>
    rw [List.range_succ, List.map_append, run_append, ih]
    show step p (r >>> n) (r.getLsbD n) = _
    simp [step, shiftRight_add]

/-! ## Bursts -/

theorem step_zero (p : BitVec w) : step p 0 false = 0 := by simp [step]

theorem run_zeros (p : BitVec w) (n : ℕ) : run p 0 (List.replicate n false) = 0 := by
  induction n with
  | zero => rfl
  | succ n ih =>
    rw [List.replicate_succ]
    show run p (step p 0 false) _ = 0
    rw [step_zero, ih]

/-- The last bit of the register tells if the generator was added. -/
theorem getLsbD_step (hp : p.getLsbD (w - 1) = true) (r : BitVec w) (b : Bool) :
    (step p r b).getLsbD (w - 1) = (r.getLsbD 0 ^^ b) := by
  have hw : 0 < w := by
    by_contra hw
    obtain rfl : w = 0 := Nat.eq_zero_of_not_pos hw
    simp at hp
  have hshift : (r >>> 1).getLsbD (w - 1) = false := by
    rw [getLsbD_ushiftRight]
    exact getLsbD_of_ge _ _ (by omega)
  unfold step
  split
  · rename_i h
    rw [getLsbD_xor, hshift, hp, h]
    rfl
  · rename_i h
    rw [hshift, eq_false_of_ne_true h]

/-- A register whose last bits are clear was only shifted, and the text is the bits it lost. -/
theorem run_eq_shift (hp : p.getLsbD (w - 1) = true) (r : BitVec w) (bits : List Bool)
    (hlen : bits.length ≤ w)
    (h : ∀ j, w - bits.length ≤ j → (run p r bits).getLsbD j = false) :
    run p r bits = r >>> bits.length ∧
      ∀ k, k < bits.length → bits[k]? = some (r.getLsbD k) := by
  induction bits using List.reverseRecOn with
  | nil => exact ⟨(ushiftRight_zero r).symm, fun k hk => absurd hk (Nat.not_lt_zero k)⟩
  | append_singleton bits b ih =>
    rw [List.length_append, List.length_singleton] at hlen h
    rw [run_append] at h
    change ∀ j, _ → (step p (run p r bits) b).getLsbD j = false at h
    have hadded : ((run p r bits).getLsbD 0 ^^ b) = false := by
      rw [← getLsbD_step hp]
      exact h _ (by omega)
    have hstep : step p (run p r bits) b = run p r bits >>> 1 := by
      rw [step, hadded]
      rfl
    rw [hstep] at h
    obtain ⟨hshift, hbits⟩ := ih (by omega) fun j hj => by
      cases j with
      | zero => exact absurd hj (by omega)
      | succ j =>
        have hlow := h j (by omega)
        rwa [getLsbD_ushiftRight, Nat.add_comm] at hlow
    have hb : b = r.getLsbD bits.length := by
      rw [hshift, getLsbD_ushiftRight, Nat.add_zero] at hadded
      exact (bne_eq_false_iff_eq.mp hadded).symm
    refine ⟨?_, fun k hk => ?_⟩
    · rw [run_append, List.length_append, List.length_singleton, shiftRight_add, ← hshift]
      exact hstep
    · rw [List.length_append, List.length_singleton] at hk
      rcases Nat.lt_or_ge k bits.length with hlt | hge
      · rw [List.getElem?_append_left hlt]
        exact hbits k hlt
      · obtain rfl : k = bits.length := by omega
        rw [List.getElem?_concat_length, hb]

/-- A text that is not longer than the register and leaves nothing has no bit. -/
theorem eq_false_of_run (hp : p.getLsbD (w - 1) = true) {bits : List Bool} (hlen : bits.length ≤ w)
    (h : run p 0 bits = 0) : ∀ b ∈ bits, b = false := by
  intro b hb
  obtain ⟨k, hk, rfl⟩ := List.mem_iff_getElem.mp hb
  obtain ⟨-, hbits⟩ := run_eq_shift hp 0 bits hlen fun j _ => by rw [h]; exact getLsbD_zero
  have hget := hbits k hk
  rw [List.getElem?_eq_getElem hk] at hget
  exact (Option.some.inj hget).trans getLsbD_zero

/-- Nothing is left behind bits that are not set only where nothing was there. -/
theorem eq_zero_of_run_zeros (hp : p.getLsbD (w - 1) = true) {r : BitVec w} {n : ℕ}
    (h : run p r (List.replicate n false) = 0) : r = 0 := by
  induction n generalizing r with
  | zero => exact h
  | succ n ih =>
    rw [List.replicate_succ] at h
    have hstep : step p r false = 0 := ih h
    have hone : run p r [false] = 0 := hstep
    refine eq_of_getLsbD_eq fun j hj => ?_
    have hw : 1 ≤ w := by omega
    obtain ⟨hshift, hbits⟩ := run_eq_shift hp r [false] hw fun j _ => by
      rw [hone]; exact getLsbD_zero
    cases j with
    | zero =>
      have hfirst := hbits 0 Nat.zero_lt_one
      exact (Option.some.inj hfirst).symm.trans getLsbD_zero.symm
    | succ j =>
      rw [hone] at hshift
      have hbit := congrArg (fun v : BitVec w => v.getLsbD j) hshift.symm
      simp only [List.length_singleton, getLsbD_ushiftRight] at hbit
      rw [Nat.add_comm] at hbit
      exact hbit.trans (getLsbD_zero.trans getLsbD_zero.symm)

/-- Some bits that are set, within as many as the register has. -/
def Burst (w : ℕ) (e : List Bool) : Prop :=
  ∃ before burst behind, e = List.replicate before false ++ (burst ++ List.replicate behind false) ∧
    burst.length ≤ w ∧ true ∈ burst

theorem run_burst (hp : p.getLsbD (w - 1) = true) {e : List Bool} (h : Burst w e) :
    run p 0 e ≠ 0 := by
  obtain ⟨before, burst, behind, rfl, hlen, htrue⟩ := h
  intro hzero
  rw [run_append, run_zeros, run_append] at hzero
  have hburst := eq_false_of_run hp hlen (eq_zero_of_run_zeros hp hzero)
  exact absurd (hburst true htrue) nofun

/-! ## Two bits -/

/-- Two bits that are set, and fewer than so many between them. -/
def Pair (n : ℕ) (e : List Bool) : Prop :=
  ∃ before between behind, e = List.replicate before false ++ (true ::
    (List.replicate between false ++ true :: List.replicate behind false)) ∧ between < n

theorem run_pair (hp : p.getLsbD (w - 1) = true) {n : ℕ}
    (hn : ∀ k, k < n → run p p (List.replicate k false) ≠ 1#w) {e : List Bool} (h : Pair n e) :
    run p 0 e ≠ 0 := by
  obtain ⟨before, between, behind, rfl, hlt⟩ := h
  intro hzero
  rw [run_append, run_zeros] at hzero
  have hfirst : step p 0 true = p := by simp [step]
  change run p (step p 0 true) _ = 0 at hzero
  rw [hfirst, run_append] at hzero
  have hlast : run p (run p p (List.replicate between false)) [true] = 0 :=
    eq_zero_of_run_zeros hp hzero
  have hw : 1 ≤ w := by
    by_contra hw
    obtain rfl : w = 0 := by omega
    simp at hp
  obtain ⟨hshift, hbits⟩ := run_eq_shift hp _ [true] hw fun j _ => by
    rw [hlast]; exact getLsbD_zero
  refine hn between hlt (eq_of_getLsbD_eq fun j hj => ?_)
  cases j with
  | zero =>
    have hbit := Option.some.inj (hbits 0 Nat.zero_lt_one)
    rw [← hbit]
    simp [getLsbD_one]
    omega
  | succ j =>
    rw [hlast] at hshift
    have hbit := congrArg (fun v : BitVec w => v.getLsbD j) hshift.symm
    simp only [List.length_singleton, getLsbD_ushiftRight] at hbit
    rw [Nat.add_comm] at hbit
    rw [hbit]
    simp [getLsbD_one]

/-! ## An odd number of bits -/

/-- Is the number of set bits below `n` odd? -/
def oddBelow (r : BitVec w) : ℕ → Bool
  | 0 => false
  | n + 1 => oddBelow r n ^^ r.getLsbD n

theorem oddBelow_xor (r r' : BitVec w) (n : ℕ) :
    oddBelow (r ^^^ r') n = (oddBelow r n ^^ oddBelow r' n) := by
  induction n with
  | zero => rfl
  | succ n ih =>
    rw [oddBelow, oddBelow, oddBelow, ih, getLsbD_xor]
    simp only [Bool.xor_assoc, Bool.xor_left_comm]

theorem oddBelow_shift (r : BitVec w) (n : ℕ) :
    oddBelow (r >>> 1) n = (oddBelow r (n + 1) ^^ r.getLsbD 0) := by
  induction n with
  | zero => simp [oddBelow]
  | succ n ih =>
    rw [oddBelow, ih, getLsbD_ushiftRight, Nat.add_comm 1]
    exact Bool.xor_right_comm _ _ _

theorem oddBelow_step (hp : oddBelow p w = true) (r : BitVec w) (b : Bool) :
    oddBelow (step p r b) w = (oddBelow r w ^^ b) := by
  have hshift : oddBelow (r >>> 1) w = (oddBelow r w ^^ r.getLsbD 0) := by
    rw [oddBelow_shift, oddBelow, getLsbD_of_ge _ _ (Nat.le_refl w), Bool.xor_false]
  unfold step
  split
  · rename_i h
    rw [oddBelow_xor, hshift, hp]
    revert h
    cases r.getLsbD 0 <;> cases b <;> cases oddBelow r w <;> simp
  · rename_i h
    rw [hshift]
    revert h
    cases r.getLsbD 0 <;> cases b <;> simp

/-- Is the number of set bits odd? -/
def odd (e : List Bool) : Bool := e.foldr (· ^^ ·) false

theorem oddBelow_run (hp : oddBelow p w = true) (r : BitVec w) (bits : List Bool) :
    oddBelow (run p r bits) w = (oddBelow r w ^^ odd bits) := by
  induction bits generalizing r with
  | nil => exact (Bool.xor_false _).symm
  | cons b bits ih =>
    show oddBelow (run p (step p r b) bits) w = (oddBelow r w ^^ (b ^^ odd bits))
    rw [ih, oddBelow_step hp, Bool.xor_assoc]

theorem oddBelow_zero (n : ℕ) : oddBelow 0#w n = false := by
  induction n with
  | zero => rfl
  | succ n ih =>
    rw [oddBelow, ih, getLsbD_zero]
    rfl

theorem run_odd (hp : oddBelow p w = true) {e : List Bool} (h : odd e = true) : run p 0 e ≠ 0 := by
  intro hzero
  have hodd := oddBelow_run hp 0#w e
  have hnothing : run p 0#w e = 0#w := hzero
  rw [hnothing, oddBelow_zero, h] at hodd
  exact absurd hodd nofun

end CentreonBroker.Crc
