import CentreonBroker.Bam.BooleanUpdate

/-!
# Known operations

What a known arithmetic expression answers. The guard of `state_known` looks at the right
operand of a division or of a modulo as it is, a `double` that is far enough from zero. A
division takes it so; a modulo first truncates it.
-/

namespace CentreonBroker.Bam

open Double

/-! ## The arithmetic -/

/-- The numbers that a `long long` holds once they are truncated. -/
def Fits (x : ℚ) : Prop := -2 ^ 63 - 1 < x ∧ x < 2 ^ 63

instance (x : ℚ) : Decidable (Fits x) := inferInstanceAs (Decidable (_ ∧ _))

/-- The operands that `%` has a remainder for. That of the least number by -1 overflows. -/
def HasRemainder (x y : ℚ) : Prop :=
  Fits x ∧ Fits y ∧ toLongLong y ≠ 0 ∧ ¬(toLongLong x = -2 ^ 63 ∧ toLongLong y = -1)

instance (x y : ℚ) : Decidable (HasRemainder x y) := inferInstanceAs (Decidable (_ ∧ _ ∧ _ ∧ _))

/-- The result of an operation on the type that it uses, where it has one. -/
def Operation.operate : Operation → ℚ → ℚ → Option ℚ
  | .addition, x, y => some (x + y)
  | .substraction, x, y => some (x - y)
  | .multiplication, x, y => some (x * y)
  | .division, x, y => if y = 0 then none else some (x / y)
  | .modulo, x, y =>
    if HasRemainder x y then some ((toLongLong x).tmod (toLongLong y)) else none

/-- The operations with a guard on their right operand. -/
def Operation.Guarded (type : Operation) : Prop := type = .division ∨ type = .modulo

namespace Node

/-- The result of a tree of operations, from what its leaves answer. -/
def arithmetic (value : Node → Double) : Node → Option ℚ
  | binary (.operation type) left right _ =>
    (left.arithmetic value).bind fun x => (right.arithmetic value).bind fun y => type.operate x y
  | n => value n

/-- A `bool_value` that is no `bool_operation`. -/
def IsLeaf : Node → Prop
  | binary (.operation _) _ _ _ => False
  | _ => True

/--
Operations over known leaves with exact values, each one with what its operands answer, as
`set_left` and `set_right` put it there.
-/
inductive OperationTree : Node → Prop where
  | leaf {n : Node} {hard soft : ℚ} (hleaf : n.IsLeaf) (known : n.state_known = true)
    (hhard : n.value_hard = some hard) (hsoft : n.value_soft = some soft) : OperationTree n
  | operation {type : Operation} {left right : Node} {kept : Kept}
    (hleft : OperationTree left) (hright : OperationTree right)
    (left_hard : kept.left_hard = left.value_hard) (left_soft : kept.left_soft = left.value_soft)
    (right_hard : kept.right_hard = right.value_hard)
    (right_soft : kept.right_soft = right.value_soft) :
    OperationTree (binary (.operation type) left right kept)

variable {right left : Node}

theorem OperationTree.mkBinary (hleft : OperationTree left)
    (hright : OperationTree right) (type : Operation) :
    OperationTree (Node.mkBinary (.operation type) left right) :=
  .operation hleft hright rfl rfl rfl rfl

/-- Both values are the results of the arithmetic, which is defined. -/
def Defined (n : Node) : Prop :=
  (∃ x, n.arithmetic value_hard = some x ∧ n.value_hard = some x) ∧
    ∃ x, n.arithmetic value_soft = some x ∧ n.value_soft = some x

/-- The truncation changes no operand of a modulo into one that it has no remainder for. -/
def Converts (left right : Double) : Prop :=
  ∀ x, left = some x → ∀ y, right = some y →
    ¬(epsilon ≤ |y| ∧ |y| < 1) ∧ Fits x ∧ Fits y ∧
      ¬(toLongLong x = -2 ^ 63 ∧ toLongLong y = -1)

/-- So it is for each modulo of a tree, on what it keeps of its operands. -/
def ModulosConvert : Node → Prop
  | binary (.operation type) left right kept =>
    left.ModulosConvert ∧ right.ModulosConvert ∧ (type = .modulo →
      Converts kept.left_hard kept.right_hard ∧ Converts kept.left_soft kept.right_soft)
  | _ => True

/-! ## One operation -/

theorem toLongLong_eq_zero_iff (y : ℚ) : toLongLong y = 0 ↔ |y| < 1 := by
  have habs : |y| = (y.num.natAbs : ℚ) / y.den := by
    conv_lhs => rw [← Rat.num_div_den y]
    rw [abs_div, Nat.abs_cast, ← Int.cast_abs, Int.abs_eq_natAbs]
    rfl
  have hden : (0 : ℚ) < y.den := by exact_mod_cast y.den_pos
  rw [habs, div_lt_one hden, Nat.cast_lt, ← Int.natAbs_eq_zero, toLongLong, Int.natAbs_tdiv,
    Int.natAbs_natCast]
  exact Nat.div_eq_zero_iff_lt y.den_pos

variable {y : ℚ}

/-- An operand that the guard lets through. -/
theorem le_of_not_lt (h : lt (fabs (some y)) (some epsilon) = false) : epsilon ≤ |y| := by
  have hnot : ¬|y| < epsilon := of_decide_eq_false h
  exact not_lt.mp hnot

variable {type : Operation} {x : ℚ}

/-- Where the guard lets the operands through, the result of the code is that of the arithmetic. -/
theorem value_of_operate {z : ℚ} (hguard : type.Guarded → epsilon ≤ |y|)
    (h : type.operate x y = some z) : type.value (some x) (some y) = some z := by
  cases type with
  | addition => exact h
  | substraction => exact h
  | multiplication => exact h
  | division =>
    have hy : ¬|y| < epsilon := not_lt.mpr (hguard (.inl rfl))
    have hlt : lt (fabs (some y)) (some epsilon) = false := decide_eq_false hy
    rw [Operation.operate] at h
    split at h
    · cases h
    · rw [Operation.value, hlt]
      exact h
  | modulo =>
    rw [Operation.operate] at h
    split at h
    · rename_i hrem
      rw [Operation.value, if_neg hrem.2.2.1]
      exact h
    · cases h

theorem hasRemainder_iff (hguard : epsilon ≤ |y|) :
    HasRemainder x y ↔ ¬(epsilon ≤ |y| ∧ |y| < 1) ∧ Fits x ∧ Fits y ∧
      ¬(toLongLong x = -2 ^ 63 ∧ toLongLong y = -1) := by
  have hzero : toLongLong y ≠ 0 ↔ ¬(epsilon ≤ |y| ∧ |y| < 1) := by
    rw [Ne, toLongLong_eq_zero_iff, not_and]
    exact ⟨fun h _ => h, fun h => h hguard⟩
  rw [HasRemainder, hzero]
  constructor
  · intro ⟨hx, hy, hnz, hmin⟩
    exact ⟨hnz, hx, hy, hmin⟩
  · intro ⟨hnz, hx, hy, hmin⟩
    exact ⟨hx, hy, hnz, hmin⟩

/-- Only a modulo may then have no result. -/
theorem operate_isSome_iff
    (hguard : type.Guarded → epsilon ≤ |y|) :
    (∃ z, type.operate x y = some z) ↔ (type = .modulo → HasRemainder x y) := by
  cases type with
  | addition | substraction | multiplication => exact ⟨fun _ => nofun, fun _ => ⟨_, rfl⟩⟩
  | division =>
    refine ⟨fun _ => nofun, fun _ => ⟨x / y, ?_⟩⟩
    have hpos : 0 < |y| := lt_of_lt_of_le (by norm_num [epsilon]) (hguard (.inl rfl))
    exact if_neg (abs_pos.mp hpos)
  | modulo =>
    rw [Operation.operate]
    split
    · rename_i hrem
      exact ⟨fun _ _ => hrem, fun _ => ⟨_, rfl⟩⟩
    · rename_i hrem
      constructor
      · intro ⟨z, hz⟩
        cases hz
      · intro h
        exact absurd (h rfl) hrem

/-! ## A tree of operations -/

variable {value : Node → Double}

theorem arithmetic_leaf {n : Node} (h : n.IsLeaf) :
    n.arithmetic value = value n := by
  cases n with
  | binary op left right kept =>
    cases op with
    | operation type => exact absurd h id
    | _ => rfl
  | _ => rfl

theorem modulosConvert_leaf {n : Node} (h : n.IsLeaf) : n.ModulosConvert := by
  cases n with
  | binary op left right kept =>
    cases op with
    | operation type => exact absurd h id
    | _ => trivial
  | _ => trivial

theorem arithmetic_operation
    {kept : Kept} (hx : left.arithmetic value = some x)
    (hy : right.arithmetic value = some y) :
    (binary (.operation type) left right kept).arithmetic value = type.operate x y := by
  rw [arithmetic, hx, hy]
  rfl

/-- An operation with a result has operands with results. -/
theorem operands_of_arithmetic
    {kept : Kept} {z : ℚ}
    (h : (binary (.operation type) left right kept).arithmetic value = some z) :
    ∃ x y, left.arithmetic value = some x ∧ right.arithmetic value = some y ∧
      type.operate x y = some z := by
  rw [arithmetic] at h
  obtain ⟨x, hx, h⟩ := Option.bind_eq_some_iff.mp h
  obtain ⟨y, hy, h⟩ := Option.bind_eq_some_iff.mp h
  exact ⟨x, y, hx, hy, h⟩

/-- The guard on the right operand, when it is known. -/
theorem le_of_not_refuses {hard soft : Double}
    (h : (Operator.operation type).refuses hard soft = false) (hx : hard = some x)
    (hy : soft = some y) (hguarded : type.Guarded) : epsilon ≤ |x| ∧ epsilon ≤ |y| := by
  subst hx hy
  have hor : (lt (fabs (some x)) (some epsilon) || lt (fabs (some y)) (some epsilon)) = false := by
    rcases hguarded with rfl | rfl
    · exact h
    · exact h
  rw [Bool.or_eq_false_iff] at hor
  exact ⟨le_of_not_lt hor.1, le_of_not_lt hor.2⟩

theorem known_operation {kept : Kept}
    (h : (binary (.operation type) left right kept).state_known = true) :
    left.state_known = true ∧ right.state_known = true ∧
      (Operator.operation type).refuses kept.right_hard kept.right_soft = false := by
  rw [state_known, Bool.and_eq_true, Bool.and_eq_true, Bool.not_eq_true'] at h
  exact ⟨h.1.1, h.1.2, h.2⟩

/-- On one of the two values: the result, where each modulo converts. -/
theorem result_of_converts {left right : Double}
    (hguard : type.Guarded → epsilon ≤ |y|) (hx : left = some x) (hy : right = some y)
    (h : type = .modulo → Converts left right) :
    ∃ z, type.operate x y = some z ∧ type.value left right = some z := by
  obtain ⟨z, hz⟩ := (operate_isSome_iff hguard).mpr fun hmod =>
    (hasRemainder_iff (hguard (.inr hmod))).mpr (h hmod x hx y hy)
  refine ⟨z, hz, ?_⟩
  rw [hx, hy]
  exact value_of_operate hguard hz

/-- And the other way round. -/
theorem converts_of_result {left right : Double} {z : ℚ}
    (hguard : type.Guarded → epsilon ≤ |y|) (hx : left = some x) (hy : right = some y)
    (hz : type.operate x y = some z) (hmod : type = .modulo) : Converts left right := by
  intro x' hx' y' hy'
  obtain rfl : x = x' := Option.some.inj (hx.symm.trans hx')
  obtain rfl : y = y' := Option.some.inj (hy.symm.trans hy')
  have hrem := (operate_isSome_iff hguard).mp ⟨z, hz⟩ hmod
  exact (hasRemainder_iff (hguard (.inr hmod))).mp hrem

/-- Where each modulo converts the values are the results, and only there are there results. -/
theorem OperationTree.known_spec {n : Node} (h : OperationTree n) (hknown : n.state_known = true) :
    (n.ModulosConvert → n.Defined) ∧ ((∃ x, n.arithmetic value_hard = some x) →
      (∃ x, n.arithmetic value_soft = some x) → n.ModulosConvert) := by
  induction h with
  | leaf hleaf known hhard hsoft =>
    refine ⟨fun _ => ⟨⟨_, ?_, hhard⟩, ⟨_, ?_, hsoft⟩⟩, fun _ _ => modulosConvert_leaf hleaf⟩
    · rw [arithmetic_leaf hleaf, hhard]
    · rw [arithmetic_leaf hleaf, hsoft]
  | operation hleft hright left_hard left_soft right_hard right_soft ihl ihr =>
    obtain ⟨hkl, hkr, hrefuses⟩ := known_operation hknown
    obtain ⟨hdl, hcl⟩ := ihl hkl
    obtain ⟨hdr, hcr⟩ := ihr hkr
    constructor
    · intro ⟨hl, hr, hmod⟩
      obtain ⟨⟨x, hxa, hxv⟩, x', hxa', hxv'⟩ := hdl hl
      obtain ⟨⟨y, hya, hyv⟩, y', hya', hyv'⟩ := hdr hr
      have hle := le_of_not_refuses hrefuses (right_hard.trans hyv) (right_soft.trans hyv')
      obtain ⟨z, hz, hvalue⟩ := result_of_converts (fun hg => (hle hg).1) (left_hard.trans hxv)
        (right_hard.trans hyv) fun hm => (hmod hm).1
      obtain ⟨z', hz', hvalue'⟩ := result_of_converts (fun hg => (hle hg).2) (left_soft.trans hxv')
        (right_soft.trans hyv') fun hm => (hmod hm).2
      refine ⟨⟨z, ?_, hvalue⟩, ⟨z', ?_, hvalue'⟩⟩
      · rw [arithmetic_operation hxa hya, hz]
      · rw [arithmetic_operation hxa' hya', hz']
    · intro ⟨z, hz⟩ ⟨z', hz'⟩
      obtain ⟨x, y, hx, hy, hxy⟩ := operands_of_arithmetic hz
      obtain ⟨x', y', hx', hy', hxy'⟩ := operands_of_arithmetic hz'
      -- the operands have results, so that they are what is kept
      have hl := hcl ⟨x, hx⟩ ⟨x', hx'⟩
      have hr := hcr ⟨y, hy⟩ ⟨y', hy'⟩
      obtain ⟨⟨u, hu, huv⟩, u', hu', huv'⟩ := hdl hl
      obtain ⟨⟨v, hv, hvv⟩, v', hv', hvv'⟩ := hdr hr
      obtain rfl : x = u := Option.some.inj (hx.symm.trans hu)
      obtain rfl : x' = u' := Option.some.inj (hx'.symm.trans hu')
      obtain rfl : y = v := Option.some.inj (hy.symm.trans hv)
      obtain rfl : y' = v' := Option.some.inj (hy'.symm.trans hv')
      have hle := le_of_not_refuses hrefuses (right_hard.trans hvv) (right_soft.trans hvv')
      refine ⟨hl, hr, fun hmod => ⟨?_, ?_⟩⟩
      · exact converts_of_result (fun hg => (hle hg).1) (left_hard.trans huv)
          (right_hard.trans hvv) hxy hmod
      · exact converts_of_result (fun hg => (hle hg).2) (left_soft.trans huv')
          (right_soft.trans hvv') hxy' hmod

/--
**A known tree of operations has defined values as long as each modulo converts its operands**
to numbers that it has a remainder for.
-/
theorem known_defined_iff {n : Node} (h : OperationTree n) :
    (n.state_known = true → n.Defined) ↔ (n.state_known = true → n.ModulosConvert) := by
  constructor
  · intro hdefined hknown
    obtain ⟨⟨x, hx, -⟩, y, hy, -⟩ := hdefined hknown
    exact (h.known_spec hknown).2 ⟨x, hx⟩ ⟨y, hy⟩
  · intro hconvert hknown
    exact (h.known_spec hknown).1 (hconvert hknown)

theorem operationTree_constant (x : ℚ) : OperationTree (constant (some x)) :=
  .leaf trivial rfl rfl rfl

/-- Seven by two, and one more. -/
theorem known_defined_sevenByTwo :
    (mkBinary (.operation .addition)
      (mkBinary (.operation .modulo) (constant (some 7)) (constant (some 2)))
      (constant (some 1))).Defined := by
  refine (known_defined_iff (.mkBinary (.mkBinary (operationTree_constant 7)
    (operationTree_constant 2) .modulo) (operationTree_constant 1) .addition)).mpr ?_ (by decide +kernel)
  intro _
  refine ⟨⟨trivial, trivial, fun _ => ?_⟩, trivial, nofun⟩
  have hconverts : Converts (some 7) (some 2) := by
    intro x hx y hy
    obtain rfl : 7 = x := Option.some.inj hx
    obtain rfl : 2 = y := Option.some.inj hy
    decide +kernel
  exact ⟨hconverts, hconverts⟩

/-- **Five modulo one half is known, and it is no number**: one half is truncated to zero. -/
theorem not_known_defined :
    ¬((mkBinary (.operation .modulo) (constant (some 5)) (constant (some (1 / 2)))).state_known =
        true →
      (mkBinary (.operation .modulo) (constant (some 5)) (constant (some (1 / 2)))).Defined) := by
  intro h
  obtain ⟨⟨x, hx, -⟩, -⟩ := h (by decide +kernel)
  have hnone : (mkBinary (.operation .modulo) (constant (some 5))
      (constant (some (1 / 2)))).arithmetic value_hard = none := by decide +kernel
  rw [hnone] at hx
  cases hx

end Node

end CentreonBroker.Bam
