import CentreonBroker.Bam.Boolean

/-!
# Updates of boolean expressions

The value of a tree afresh, against what its nodes answer out of what they keep. A node
that keeps what its operands answer answers as it should; `child_has_update` sees to that for
the left operand, and for the right one unless only its soft value has changed: the test of
that value is the wrong way round.
-/

namespace CentreonBroker.Bam

open Double

namespace Node

/-! ## Afresh -/

/-- The hard value of a tree, from its leaves. -/
def eval_hard : Node → Double
  | constant value => value
  | service _ _ s => some s.state_hard
  | not value => ofBool !truth value.eval_hard
  | binary op left right _ => op.value left.eval_hard right.eval_hard

/-- The soft value. -/
def eval_soft : Node → Double
  | constant value => value
  | service _ _ s => some s.state_soft
  | not value => ofBool !truth value.eval_soft
  | binary op left right _ => op.value left.eval_soft right.eval_soft

/-- Whether these are known. -/
def eval_known : Node → Bool
  | constant _ => true
  | service _ _ s => s.state_known
  | not value => value.eval_known
  | binary op left right _ =>
    left.eval_known && right.eval_known && !op.refuses right.eval_hard right.eval_soft

/-- A node and all those below it. -/
def nodes : Node → List Node
  | constant value => [constant value]
  | service host_id service_id s => [service host_id service_id s]
  | not value => not value :: value.nodes
  | binary op left right kept => binary op left right kept :: (left.nodes ++ right.nodes)

/-- Every node of a tree answers what its leaves say. -/
def Agrees (n : Node) : Prop :=
  ∀ m ∈ n.nodes, m.value_hard = m.eval_hard ∧ m.value_soft = m.eval_soft ∧
    m.state_known = m.eval_known

instance (n : Node) : Decidable n.Agrees :=
  inferInstanceAs (Decidable (∀ m ∈ n.nodes, _))

/-- Every operator of a tree keeps what its operands answer. -/
def Fresh : Node → Prop
  | constant _ => True
  | service _ _ _ => True
  | not value => value.Fresh
  | binary _ left right kept =>
    left.Fresh ∧ right.Fresh ∧
      (kept.left_hard = left.value_hard ∧ kept.left_soft = left.value_soft) ∧
      kept.right_hard = right.value_hard ∧ kept.right_soft = right.value_soft

variable {n : Node}

theorem Fresh.values (h : n.Fresh) :
    n.value_hard = n.eval_hard ∧ n.value_soft = n.eval_soft ∧ n.state_known = n.eval_known := by
  induction n with
  | constant value => exact ⟨rfl, rfl, rfl⟩
  | service host_id service_id s => exact ⟨rfl, rfl, rfl⟩
  | not value ih =>
    obtain ⟨hhard, hsoft, hknown⟩ := ih h
    exact ⟨by rw [value_hard, eval_hard, hhard], by rw [value_soft, eval_soft, hsoft], hknown⟩
  | binary op left right kept ihl ihr =>
    obtain ⟨hl, hr, ⟨hlh, hls⟩, hrh, hrs⟩ := h
    obtain ⟨hl1, hl2, hl3⟩ := ihl hl
    obtain ⟨hr1, hr2, hr3⟩ := ihr hr
    refine ⟨?_, ?_, ?_⟩
    · rw [value_hard, eval_hard, hlh, hrh, hl1, hr1]
    · rw [value_soft, eval_soft, hls, hrs, hl2, hr2]
    · rw [state_known, eval_known, hl3, hr3, hrh, hrs, hr1, hr2]

theorem Fresh.below (h : n.Fresh) : ∀ m ∈ n.nodes, m.Fresh := by
  induction n with
  | constant value | service host_id service_id s =>
    intro m hm
    rw [List.mem_singleton.mp hm]
    trivial
  | not value ih =>
    intro m hm
    rcases List.mem_cons.mp hm with rfl | hm
    · exact h
    · exact ih h m hm
  | binary op left right kept ihl ihr =>
    intro m hm
    rcases List.mem_cons.mp hm with rfl | hm
    · exact h
    · rcases List.mem_append.mp hm with hm | hm
      · exact ihl h.1 m hm
      · exact ihr h.2.1 m hm

theorem Fresh.agrees (h : n.Fresh) : n.Agrees := fun m hm => (h.below m hm).values

/-! ## One notification -/

theorem eq_of_ne_eq_false {a b : Double} (h : ne a b = false) : a = b := by
  cases a with
  | none => exact absurd h (by simp [ne])
  | some x =>
    cases b with
    | none => exact absurd h (by simp [ne])
    | some y => exact congrArg some (by simpa [ne] using h)

variable (op : Operator)

/-- `retval` is true from the start. -/
theorem childHasUpdate_notifies (left right : Node) (child : Side) (kept : Kept) :
    (childHasUpdate op left right child kept).1 = true := by
  cases child <;> simp only [childHasUpdate] <;> split <;> dsimp only <;> split <;> dsimp only <;>
    split <;> rfl

/-- The flags do not touch the values. -/
theorem childHasUpdate_values (left right : Node) (child : Side) (kept : Kept) :
    let refreshed := match child with
      | .left =>
        if ne kept.left_hard left.value_hard || ne kept.left_soft left.value_soft then
          { kept with left_hard := left.value_hard, left_soft := left.value_soft }
        else kept
      | .right =>
        if ne kept.right_hard right.value_hard || !ne kept.right_soft right.value_soft then
          { kept with right_hard := right.value_hard, right_soft := right.value_soft }
        else kept
    let kept' := (childHasUpdate op left right child kept).2
    (kept'.left_hard = refreshed.left_hard ∧ kept'.left_soft = refreshed.left_soft) ∧
      kept'.right_hard = refreshed.right_hard ∧ kept'.right_soft = refreshed.right_soft := by
  intro refreshed kept'
  cases child <;> simp only [kept', refreshed, childHasUpdate] <;> split <;> dsimp only <;>
    split <;> dsimp only <;> split <;> exact ⟨⟨rfl, rfl⟩, rfl, rfl⟩

/-- A left operand is refreshed, whatever has changed. -/
theorem childHasUpdate_left (left right : Node) (kept : Kept) :
    let kept' := (childHasUpdate op left right .left kept).2
    (kept'.left_hard = left.value_hard ∧ kept'.left_soft = left.value_soft) ∧
      kept'.right_hard = kept.right_hard ∧ kept'.right_soft = kept.right_soft := by
  obtain ⟨⟨h1, h2⟩, h3, h4⟩ := childHasUpdate_values op left right .left kept
  by_cases h : (ne kept.left_hard left.value_hard || ne kept.left_soft left.value_soft) = true
  · simp only [h, if_true] at h1 h2 h3 h4
    exact ⟨⟨h1, h2⟩, h3, h4⟩
  · simp only [h] at h1 h2 h3 h4
    obtain ⟨hhard, hsoft⟩ := Bool.or_eq_false_iff.mp (Bool.eq_false_iff.mpr h)
    exact ⟨⟨h1.trans (eq_of_ne_eq_false hhard), h2.trans (eq_of_ne_eq_false hsoft)⟩, h3, h4⟩

/-- A right operand is refreshed if its hard value has changed, or its soft value has not. -/
theorem childHasUpdate_right (left right : Node) (kept : Kept) :
    let kept' := (childHasUpdate op left right .right kept).2
    (kept'.left_hard = kept.left_hard ∧ kept'.left_soft = kept.left_soft) ∧
      kept'.right_hard = right.value_hard ∧
      (kept'.right_soft = right.value_soft ↔
        ne kept.right_hard right.value_hard = true ∨ kept.right_soft = right.value_soft) := by
  obtain ⟨⟨h1, h2⟩, h3, h4⟩ := childHasUpdate_values op left right .right kept
  by_cases h : (ne kept.right_hard right.value_hard || !ne kept.right_soft right.value_soft) = true
  · simp only [h, if_true] at h1 h2 h3 h4
    refine ⟨⟨h1, h2⟩, h3, iff_of_true h4 ?_⟩
    rcases Bool.or_eq_true_iff.mp h with hhard | hsoft
    · exact .inl hhard
    · exact .inr (eq_of_ne_eq_false (by simpa using hsoft))
  · simp only [h] at h1 h2 h3 h4
    obtain ⟨hhard, -⟩ := Bool.or_eq_false_iff.mp (Bool.eq_false_iff.mpr h)
    refine ⟨⟨h1, h2⟩, h3.trans (eq_of_ne_eq_false hhard), ?_⟩
    rw [h4, hhard]
    simp

/-! ## One status -/

/-- A tree once the leaf at the end of a path has received a status. -/
def assign (st : Status) : List Side → Node → Node
  | [], service host_id service_id s =>
    if st.host_id = host_id ∧ st.service_id = service_id then service host_id service_id st.state
    else service host_id service_id s
  | path, not value => not (assign st path value)
  | .left :: path, binary op left right kept => binary op (assign st path left) right kept
  | .right :: path, binary op left right kept => binary op left (assign st path right) kept
  | _, n => n

/--
No right operand on the way misses an update: when its soft value changes, so does its hard
value, or there is a NaN.
-/
def Seen (st : Status) : List Side → Node → Prop
  | path, not value => Seen st path value
  | .left :: path, binary _ left _ _ => Seen st path left
  | .right :: path, binary _ _ right _ =>
    Seen st path right ∧
      (ne right.eval_hard (assign st path right).eval_hard = true ∨
        right.eval_soft = (assign st path right).eval_soft)
  | _, _ => True

variable (st : Status)

theorem update_service (host_id service_id : ℕ) (s : ServiceState) :
    update st [] (service host_id service_id s) =
      if st.host_id = host_id ∧ st.service_id = service_id then
        (service host_id service_id st.state, true)
      else (service host_id service_id s, false) := rfl

theorem update_left_child (path : List Side) (op : Operator) (left right : Node)
    (kept : Kept) :
    update st (.left :: path) (binary op left right kept) =
      if (update st path left).2 then
        (binary op (update st path left).1 right
          (childHasUpdate op (update st path left).1 right .left kept).2,
          (childHasUpdate op (update st path left).1 right .left kept).1)
      else (binary op (update st path left).1 right kept, false) := rfl

theorem update_right_child (path : List Side) (op : Operator) (left right : Node)
    (kept : Kept) :
    update st (.right :: path) (binary op left right kept) =
      if (update st path right).2 then
        (binary op left (update st path right).1
          (childHasUpdate op left (update st path right).1 .right kept).2,
          (childHasUpdate op left (update st path right).1 .right kept).1)
      else (binary op left (update st path right).1 kept, false) := rfl

theorem update_not (path : List Side) (value : Node) :
    update st path (not value) = (not (update st path value).1, (update st path value).2) := by
  cases path with
  | nil => rfl
  | cons side path => cases side <;> rfl

theorem assign_not (path : List Side) (value : Node) :
    assign st path (not value) = not (assign st path value) := by
  cases path with
  | nil => rfl
  | cons side path => cases side <;> rfl

theorem seen_not (path : List Side) (value : Node) :
    Seen st path (not value) ↔ Seen st path value := by
  cases path with
  | nil => exact Iff.rfl
  | cons side path => cases side <;> exact Iff.rfl

/-- A node that does not propagate has not changed. -/
theorem update_unchanged {st : Status} {path : List Side}
    (h : (update st path n).2 = false) : (update st path n).1 = n := by
  induction n generalizing path with
  | constant value => cases path with
    | nil => rfl
    | cons side path => cases side <;> rfl
  | service host_id service_id s =>
    cases path with
    | nil =>
      rw [update_service] at h ⊢
      by_cases hids : st.host_id = host_id ∧ st.service_id = service_id
      · rw [if_pos hids] at h
        cases h
      · rw [if_neg hids]
    | cons side path => cases side <;> rfl
  | not value ih =>
    rw [update_not] at h ⊢
    exact congrArg not (ih h)
  | binary op left right kept ihl ihr =>
    cases path with
    | nil => rfl
    | cons side path =>
      cases side with
      | left =>
        cases hn : (update st path left).2 with
        | false => rw [update_left_child, hn, if_neg Bool.false_ne_true, ihl hn]
        | true =>
          rw [update_left_child, hn, if_pos rfl] at h
          dsimp only at h
          rw [childHasUpdate_notifies] at h
          cases h
      | right =>
        cases hn : (update st path right).2 with
        | false => rw [update_right_child, hn, if_neg Bool.false_ne_true, ihr hn]
        | true =>
          rw [update_right_child, hn, if_pos rfl] at h
          dsimp only at h
          rw [childHasUpdate_notifies] at h
          cases h

/-- What an update makes of an operator, by its left operand. -/
theorem update_left (path : List Side) (op : Operator) (left right : Node)
    (kept : Kept) :
    (update st (.left :: path) (binary op left right kept)).1 =
      if (update st path left).2 then
        binary op (update st path left).1 right
          (childHasUpdate op (update st path left).1 right .left kept).2
      else binary op left right kept := by
  cases hn : (update st path left).2 with
  | false =>
    rw [update_left_child, hn, if_neg Bool.false_ne_true, if_neg Bool.false_ne_true,
      update_unchanged hn]
  | true => rw [update_left_child, hn, if_pos rfl, if_pos rfl]

theorem update_right (path : List Side) (op : Operator) (left right : Node)
    (kept : Kept) :
    (update st (.right :: path) (binary op left right kept)).1 =
      if (update st path right).2 then
        binary op left (update st path right).1
          (childHasUpdate op left (update st path right).1 .right kept).2
      else binary op left right kept := by
  cases hn : (update st path right).2 with
  | false =>
    rw [update_right_child, hn, if_neg Bool.false_ne_true, if_neg Bool.false_ne_true,
      update_unchanged hn]
  | true => rw [update_right_child, hn, if_pos rfl, if_pos rfl]

/-- Afresh, an update is the new state of one leaf. -/
theorem eval_update (path : List Side) (n : Node) :
    (update st path n).1.eval_hard = (assign st path n).eval_hard ∧
      (update st path n).1.eval_soft = (assign st path n).eval_soft := by
  induction n generalizing path with
  | constant value => cases path with
    | nil => exact ⟨rfl, rfl⟩
    | cons side path => cases side <;> exact ⟨rfl, rfl⟩
  | service host_id service_id s =>
    cases path with
    | nil =>
      rw [update_service, assign]
      split <;> exact ⟨rfl, rfl⟩
    | cons side path => cases side <;> exact ⟨rfl, rfl⟩
  | not value ih =>
    obtain ⟨hhard, hsoft⟩ := ih path
    rw [update_not, assign_not]
    exact ⟨by rw [eval_hard, eval_hard, hhard], by rw [eval_soft, eval_soft, hsoft]⟩
  | binary op left right kept ihl ihr =>
    cases path with
    | nil => exact ⟨rfl, rfl⟩
    | cons side path =>
      cases side with
      | left =>
        obtain ⟨hhard, hsoft⟩ := ihl path
        simp only [update_left, assign, eval_hard, eval_soft, ← hhard, ← hsoft]
        cases hn : (update st path left).2 with
        | false => simp [eval_hard, eval_soft, update_unchanged hn]
        | true => simp [eval_hard, eval_soft]
      | right =>
        obtain ⟨hhard, hsoft⟩ := ihr path
        simp only [update_right, assign, eval_hard, eval_soft, ← hhard, ← hsoft]
        cases hn : (update st path right).2 with
        | false => simp [eval_hard, eval_soft, update_unchanged hn]
        | true => simp [eval_hard, eval_soft]

/-- **One status.** A fresh tree stays so exactly when every right operand sees it. -/
theorem Fresh.update_iff {st : Status} {path : List Side} (h : n.Fresh) :
    (update st path n).1.Fresh ↔ Seen st path n := by
  induction n generalizing path with
  | constant value => cases path with
    | nil => exact Iff.rfl
    | cons side path => cases side <;> exact Iff.rfl
  | service host_id service_id s =>
    cases path with
    | nil =>
      rw [update_service]
      split <;> exact iff_of_true trivial trivial
    | cons side path => cases side <;> exact Iff.rfl
  | not value ih =>
    rw [update_not, seen_not]
    exact ih h
  | binary op left right kept ihl ihr =>
    cases path with
    | nil => exact iff_of_true h trivial
    | cons side path =>
      obtain ⟨hl, hr, ⟨hlh, hls⟩, hrh, hrs⟩ := h
      cases side with
      | left =>
        have ih := @ihl path hl
        show _ ↔ Seen st path left
        rw [update_left, ← ih]
        cases hn : (update st path left).2 with
        | false =>
          rw [update_unchanged hn]
          exact iff_of_true ⟨hl, hr, ⟨hlh, hls⟩, hrh, hrs⟩ hl
        | true =>
          obtain ⟨hleft, hh, hs⟩ := childHasUpdate_left op (update st path left).1 right kept
          exact ⟨fun hfresh => hfresh.1,
            fun hfresh => ⟨hfresh, hr, hleft, hh.trans hrh, hs.trans hrs⟩⟩
      | right =>
        have ih := @ihr path hr
        obtain ⟨hhard, hsoft⟩ := eval_update st path right
        show _ ↔ Seen st path right ∧ _
        rw [update_right, ← ih, ← hhard, ← hsoft]
        cases hn : (update st path right).2 with
        | false =>
          rw [update_unchanged hn]
          exact iff_of_true ⟨hl, hr, ⟨hlh, hls⟩, hrh, hrs⟩ ⟨hr, .inr rfl⟩
        | true =>
          obtain ⟨⟨hh, hs⟩, hright, hiff⟩ :=
            childHasUpdate_right op left (update st path right).1 kept
          -- what was kept, and what there is now, are the values afresh
          have hold := hr.values
          have hiff : (update st path right).1.Fresh →
              ((childHasUpdate op left (update st path right).1 .right kept).2.right_soft =
                  (update st path right).1.value_soft ↔
                ne right.eval_hard (update st path right).1.eval_hard = true ∨
                  right.eval_soft = (update st path right).1.eval_soft) := by
            intro hfresh
            rw [← hold.1, ← hold.2.1, ← hfresh.values.1, ← hfresh.values.2.1, ← hrh, ← hrs]
            exact hiff
          refine ⟨fun hfresh => ?_, fun hseen => ?_⟩
          · exact ⟨hfresh.2.1, (hiff hfresh.2.1).mp hfresh.2.2.2.2⟩
          · exact ⟨hl, hseen.1, ⟨hh.trans hlh, hs.trans hls⟩, hright, (hiff hseen.1).mpr hseen.2⟩

/-! ## Runs -/

/-- Every status of a run is seen. -/
def SeenRun (n : Node) : List (List Side × Status) → Prop
  | [] => True
  | u :: us => Seen u.2 u.1 n ∧ SeenRun (update u.2 u.1 n).1 us

theorem Fresh.run_iff (h : n.Fresh) (us : List (List Side × Status)) :
    (∀ k, (run n (us.take k)).Fresh) ↔ SeenRun n us := by
  induction us generalizing n with
  | nil =>
    refine iff_of_true (fun k => ?_) trivial
    rw [List.take_nil]
    exact h
  | cons u us ih =>
    show _ ↔ Seen u.2 u.1 n ∧ SeenRun (update u.2 u.1 n).1 us
    refine ⟨fun hall => ?_, fun hseen k => ?_⟩
    · have hfirst : (update u.2 u.1 n).1.Fresh := hall 1
      exact ⟨h.update_iff.mp hfirst, (ih hfirst).mp fun k => hall (k + 1)⟩
    · have hfirst := h.update_iff.mpr hseen.1
      cases k with
      | zero => exact h
      | succ k => exact (ih hfirst).mpr hseen.2 k

theorem mkBinary_fresh {op : Operator} {left right : Node} (hl : left.Fresh) (hr : right.Fresh) :
    (mkBinary op left right).Fresh := ⟨hl, hr, ⟨rfl, rfl⟩, rfl, rfl⟩

end Node

/-! ## What is built -/

namespace ExpBuilder

variable {env : Env}

/-- The nodes of an operand stack are fresh. -/
def FreshStack (operands : List Operand) : Prop := ∀ n, .node n ∈ operands → n.Fresh

variable {operands : List Operand}

theorem FreshStack.tail {o : Operand} (h : FreshStack (o :: operands)) :
    FreshStack operands := fun n hn => h n (List.mem_cons_of_mem _ hn)

theorem FreshStack.cons {n : Node} (hn : n.Fresh)
    (h : FreshStack operands) : FreshStack (.node n :: operands) := by
  intro m hm
  rcases List.mem_cons.mp hm with heq | hm
  · cases heq
    exact hn
  · exact h m hm

theorem FreshStack.text {s : String} (h : FreshStack operands) :
    FreshStack (.text s :: operands) := by
  intro m hm
  rcases List.mem_cons.mp hm with heq | hm
  · cases heq
  · exact h m hm

variable {rest : List Operand}

theorem popOperand_fresh {n : Node} (h : FreshStack operands)
    (hp : popOperand env operands = .ok (n, rest)) : n.Fresh ∧ FreshStack rest := by
  cases operands with
  | nil => cases hp
  | cons o operands =>
    cases o with
    | node m =>
      cases hp
      exact ⟨h n List.mem_cons_self, h.tail⟩
    | text s =>
      cases hp
      exact ⟨trivial, h.tail⟩

theorem popString_fresh {s : String} (h : FreshStack operands)
    (hp : popString operands = .ok (s, rest)) : FreshStack rest := by
  cases operands with
  | nil => cases hp
  | cons o operands =>
    cases o with
    | node m => cases hp
    | text t =>
      rw [popString] at hp
      split at hp
      · cases hp
      · cases hp
        exact h.tail

/-- What a computation that goes on has done. -/
theorem bind_ok {α β : Type} {x : Except String α} {f : α → Except String β} {b : β}
    (h : x >>= f = .ok b) : ∃ a, x = .ok a ∧ f a = .ok b := by
  cases x with
  | error e => cases h
  | ok a => exact ⟨a, rfl, h⟩

/-- A string is taken off, and what is done then keeps the operands so. -/
theorem FreshStack.pop {f : String × List Operand → Except String (List Operand)}
    (h : FreshStack operands) (hp : popString operands >>= f = .ok rest)
    (hf : ∀ s operands, FreshStack operands → f (s, operands) = .ok rest → FreshStack rest) :
    FreshStack rest := by
  obtain ⟨⟨s, operands⟩, hpop, hp⟩ := bind_ok hp
  exact hf s operands (popString_fresh h hpop) hp

theorem applyOperator_fresh {token : String}
    (h : FreshStack operands) (hp : applyOperator env token operands = .ok rest) :
    FreshStack rest := by
  unfold applyOperator at hp
  split at hp
  · cases hp
    exact h
  · split at hp
    · obtain ⟨⟨arg, operands⟩, hpop, hp⟩ := bind_ok hp
      obtain ⟨harg, h⟩ := popOperand_fresh h hpop
      cases hp
      exact .cons harg h
    · split at hp
      · cases hp
      · obtain ⟨⟨right, operands⟩, hpop, hp⟩ := bind_ok hp
        obtain ⟨hr, h⟩ := popOperand_fresh h hpop
        obtain ⟨⟨left, operands⟩, hpop, hp⟩ := bind_ok hp
        obtain ⟨hl, h⟩ := popOperand_fresh h hpop
        cases hp
        exact .cons (Node.mkBinary_fresh hl hr) h

theorem applyFunction_fresh {func : String} {arity : ℤ}
    (h : FreshStack operands) (hp : applyFunction env func arity operands = .ok rest) :
    FreshStack rest := by
  have hlast : ∀ (s : String) operands, FreshStack operands →
      (.ok operands : Except String (List Operand)) = .ok rest → FreshStack rest :=
    fun _ _ h hp => Except.ok.inj hp ▸ h
  unfold applyFunction at hp
  split at hp
  · obtain ⟨-, -, hp⟩ := bind_ok hp
    exact h.pop hp hlast
  · split at hp
    · obtain ⟨-, -, hp⟩ := bind_ok hp
      refine h.pop hp fun svc _ h hp => h.pop hp fun hst _ h hp => ?_
      dsimp only at hp
      split at hp
      · cases hp
      · cases hp
        exact .cons trivial h
    · split at hp
      · obtain ⟨-, -, hp⟩ := bind_ok hp
        exact h.pop hp fun _ _ h hp => h.pop hp fun _ _ h hp => h.pop hp hlast
      · split at hp
        · obtain ⟨-, -, hp⟩ := bind_ok hp
          exact h.pop hp hlast
        · split at hp
          · obtain ⟨-, -, hp⟩ := bind_ok hp
            exact h.pop hp hlast
          · cases hp

theorem loop_fresh {tokens : List String}
    (h : FreshStack operands) (hp : loop env tokens operands = .ok rest) : FreshStack rest := by
  induction tokens, operands using loop.induct with
  | case1 operands =>
    cases hp
    exact h
  | case2 operands token hop =>
    rw [loop, if_pos hop] at hp
    exact applyOperator_fresh h hp
  | case3 operands token hop hfun =>
    rw [loop, if_neg hop, if_pos hfun] at hp
    cases hp
  | case4 operands token hop hfun =>
    rw [loop, if_neg hop, if_neg hfun] at hp
    cases hp
    exact h.text
  | case5 token next rest operands hop ih =>
    rw [loop, if_pos hop] at hp
    obtain ⟨operands', happ, hp⟩ := bind_ok hp
    exact ih operands' (applyOperator_fresh h happ) hp
  | case6 token next rest operands hop hfun ih =>
    rw [loop, if_neg hop, if_pos hfun] at hp
    obtain ⟨operands', happ, hp⟩ := bind_ok hp
    exact ih operands' (applyFunction_fresh h happ) hp
  | case7 token next rest operands hop hstatic hfun ih =>
    rw [loop, if_neg hop, if_neg hstatic, if_pos hfun] at hp
    exact ih h hp
  | case8 token next rest operands hop hstatic hfun ih =>
    rw [loop, if_neg hop, if_neg hstatic, if_neg hfun] at hp
    exact ih h.text hp

theorem build_fresh {tokens : List String} {n : Node} (h : build env tokens = .ok n) : n.Fresh := by
  obtain ⟨operands, hloop, h⟩ := bind_ok h
  have hfresh := loop_fresh (fun _ hn => absurd hn List.not_mem_nil) hloop
  obtain ⟨⟨tree, operands⟩, hpop, h⟩ := bind_ok h
  obtain ⟨htree, -⟩ := popOperand_fresh hfresh hpop
  dsimp only at h
  split at h
  · cases h
    exact htree
  · cases h

/--
**Expressions follow their services.** In a run whose statuses are all seen, every node of
an expression answers at any time what its leaves say. And these are the runs in which the
operators keep what their operands answer.
-/
theorem values_follow {tokens : List String} {n : Node} (h : build env tokens = .ok n)
    (us : List (List Node.Side × Node.Status)) :
    (n.SeenRun us → ∀ k, (n.run (us.take k)).Agrees) ∧
      (n.SeenRun us ↔ ∀ k, (n.run (us.take k)).Fresh) := by
  have hiff := (build_fresh h).run_iff us
  exact ⟨fun hseen k => (hiff.mpr hseen k).agrees, hiff.symm⟩

/-- One host and its one service. -/
def oneService : Env where
  strtod _ := none
  strtol s := if s = "2" then 2 else 0
  get_service_id hst svc := if hst = "host" ∧ svc = "service" then (1, 2) else (0, 0)

/-- A soft state of CRITICAL, while the hard state is still OK. -/
def softCritical : Node.Status := ⟨1, 2, 0, 2, 0⟩

/-- `SERVICESTATUS(host, service) IS CRITICAL`: the service is on the left. -/
theorem values_follow_left :
    (Node.mkBinary .equal (.service 1 2 ⟨0, 0, false, false⟩) (.constant (some 2))).SeenRun
        [([.left], softCritical)] ∧
      ∀ k, ((Node.mkBinary .equal (.service 1 2 ⟨0, 0, false, false⟩) (.constant (some 2))).run
        ([([.left], softCritical)].take k)).Agrees := by
  have hseen : (Node.mkBinary .equal (.service 1 2 ⟨0, 0, false, false⟩)
      (.constant (some 2))).SeenRun [([.left], softCritical)] := ⟨trivial, trivial⟩
  have hbuild : build oneService ["host", "service", "SERVICESTATUS", "2", "CRITICAL", "IS"] =
      .ok (Node.mkBinary .equal (.service 1 2 ⟨0, 0, false, false⟩) (.constant (some 2))) := rfl
  exact ⟨hseen, (values_follow hbuild _).1 hseen⟩

/-- **`CRITICAL IS SERVICESTATUS(host, service)`**: on the right, the soft state is missed. -/
theorem not_values_follow :
    ∃ n, build oneService ["CRITICAL", "host", "service", "SERVICESTATUS", "2", "IS"] = .ok n ∧
      n.Agrees ∧ ¬(n.run [([.right], softCritical)]).Agrees :=
  ⟨Node.mkBinary .equal (.constant (some 2)) (.service 1 2 ⟨0, 0, false, false⟩), rfl,
    by decide +kernel, by decide +kernel⟩

end ExpBuilder

end CentreonBroker.Bam
