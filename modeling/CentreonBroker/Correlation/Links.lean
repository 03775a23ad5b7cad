import CentreonBroker.Correlation.Node
import CentreonBroker.Lib.TwoWay

/-!
# The links of the nodes

A node has four sets of pointers to other nodes. The children of a node have it as a parent, and
the nodes that depend on it have it among their dependencies. A destroyed node takes itself out
of the sets of the nodes that it has in its own; a set that has it and that it does not know of
keeps a pointer to nothing.

A node is an address of a type `ν`, which may be that of another node once it is destroyed.
-/

namespace CentreonBroker.Correlation

/-- The nodes that exist, and their sets. -/
structure Graph (ν : Type) where
  live : Finset ν
  node : ν → Node
  /-- `_children` and `_parents`. -/
  parenting : TwoWay ν
  /-- `_depended_by` and `_depends_on`. -/
  depending : TwoWay ν

namespace Graph

variable {ν : Type}

def children (g : Graph ν) : ν → Finset ν := g.parenting.forth

def parents (g : Graph ν) : ν → Finset ν := g.parenting.back

def dependedBy (g : Graph ν) : ν → Finset ν := g.depending.forth

def dependsOn (g : Graph ν) : ν → Finset ν := g.depending.back

def empty : Graph ν := ⟨∅, fun _ => { state := {} }, .empty, .empty⟩

/-- What the default constructor makes of the members, at the time `now`. -/
def newNode (now : Timestamp) : Node :=
  { state := { id := ⟨0, 0⟩, inDowntime := false, currentState := 0, startTime := now } }

variable [DecidableEq ν]

/-- A node whose sets are empty. -/
def allocate (g : Graph ν) (this : ν) : Graph ν :=
  { g with
    live := insert this g.live
    parenting := g.parenting.clear this
    depending := g.depending.clear this }

/-- `node::node()`. -/
def construct (g : Graph ν) (this : ν) (now : Timestamp) : Graph ν :=
  { g.allocate this with node := Function.update g.node this (newNode now) }

/-- `_internal_copy`, with the copy of the state that comes before it. -/
def internalCopy (g : Graph ν) (this n : ν) : Graph ν :=
  { g with
    node := Function.update g.node this (g.node n)
    parenting := g.parenting.copyTo this n
    depending := g.depending.copyTo this n }

/-- `node::node(node const&)`. -/
def copyConstruct (g : Graph ν) (this other : ν) : Graph ν :=
  (g.allocate this).internalCopy this other

/-- `node::operator=`. -/
def assign (g : Graph ν) (this other : ν) : Graph ν :=
  if this ≠ other then g.internalCopy this other else g

/-- `node::~node`. -/
def destroy (g : Graph ν) (this : ν) : Graph ν :=
  { g with
    live := g.live.erase this
    parenting := g.parenting.forget this
    depending := g.depending.forget this }

/-- A pointer is inserted at both ends of a link, unless the two nodes have the opposite link. The
text of the exception names the inserted node twice. -/
def insertLink (links : TwoWay ν) (this n : ν) (id : NodeId) (role opposite : String) :
    Except String (TwoWay ν) :=
  if n ∈ links.back this then
    .error (s!"correlation: trying to insert node ({id.hostId}, {id.serviceId}) as {role} of node " ++
      s!"({id.hostId}, {id.serviceId}), but this node is already {opposite}")
  else .ok (links.link this n)

def addChild (g : Graph ν) (this n : ν) : Except String (Graph ν) :=
  (insertLink g.parenting this n (g.node n).state.id "children" "a parent").map
    fun links => { g with parenting := links }

def addDepended (g : Graph ν) (this n : ν) : Except String (Graph ν) :=
  (insertLink g.depending this n (g.node n).state.id "inverse dependency" "a dependency").map
    fun links => { g with depending := links }

def addDependency (g : Graph ν) (this n : ν) : Except String (Graph ν) :=
  (insertLink g.depending.swap this n (g.node n).state.id "dependency"
    "an inverse dependency").map fun links => { g with depending := links.swap }

def addParent (g : Graph ν) (this n : ν) : Except String (Graph ν) :=
  (insertLink g.parenting.swap this n (g.node n).state.id "parent" "a children").map
    fun links => { g with parenting := links.swap }

def removeChild (g : Graph ν) (this n : ν) : Graph ν :=
  { g with parenting := g.parenting.unlink this n }

def removeDepended (g : Graph ν) (this n : ν) : Graph ν :=
  { g with depending := g.depending.unlink this n }

def removeDependency (g : Graph ν) (this n : ν) : Graph ν :=
  { g with depending := (g.depending.swap.unlink this n).swap }

def removeParent (g : Graph ν) (this n : ν) : Graph ν :=
  { g with parenting := (g.parenting.swap.unlink this n).swap }

/-- An insertion that throws leaves everything as it was. -/
def settle (g : Graph ν) : Except String (Graph ν) → Graph ν
  | .ok g' => g'
  | .error _ => g

end Graph

/-- What is done with the nodes. -/
inductive Op (ν : Type) where
  | construct (this : ν) (now : Timestamp)
  | copyConstruct (this other : ν)
  | assign (this other : ν)
  | destroy (this : ν)
  | addChild (this n : ν)
  | addDepended (this n : ν)
  | addDependency (this n : ν)
  | addParent (this n : ν)
  | removeChild (this n : ν)
  | removeDepended (this n : ν)
  | removeDependency (this n : ν)
  | removeParent (this n : ν)

namespace Graph

section

variable {ν : Type} {g : Graph ν}

/-! ## Both ends of a link -/

/-- Each link is in the sets of both its nodes, and these exist. -/
structure Symmetric (g : Graph ν) : Prop where
  parenting : ∀ a ∈ g.live, ∀ b ∈ g.live, b ∈ g.children a ↔ a ∈ g.parents b
  depending : ∀ a ∈ g.live, ∀ b ∈ g.live, b ∈ g.dependsOn a ↔ a ∈ g.dependedBy b
  live : ∀ a ∈ g.live, g.children a ⊆ g.live ∧ g.parents a ⊆ g.live ∧ g.dependsOn a ⊆ g.live ∧
    g.dependedBy a ⊆ g.live

/-- The two ends of the links, for all addresses: there are no links where there is no node. -/
structure Linked (g : Graph ν) : Prop where
  parenting : g.parenting.Mutual
  depending : g.depending.Mutual
  parenting_live : g.parenting.Within g.live
  depending_live : g.depending.Within g.live

theorem linked_empty : (empty : Graph ν).Linked :=
  ⟨TwoWay.mutual_empty, TwoWay.mutual_empty, TwoWay.within_empty, TwoWay.within_empty⟩

theorem Linked.symmetric (h : g.Linked) : g.Symmetric where
  parenting a _ b _ := h.parenting a b
  depending a _ b _ := (h.depending b a).symm
  live _ _ := ⟨fun _ hb => h.parenting_live.forth_mem h.parenting hb,
    fun _ hb => h.parenting_live.back_mem h.parenting hb,
    fun _ hb => h.depending_live.back_mem h.depending hb,
    fun _ hb => h.depending_live.forth_mem h.depending hb⟩

/-- Without links elsewhere, nothing is asked of other addresses. -/
theorem Symmetric.mutual (h : g.Symmetric) (hparenting : g.parenting.Within g.live)
    (hdepending : g.depending.Within g.live) : g.parenting.Mutual ∧ g.depending.Mutual := by
  refine ⟨fun x y => ⟨fun hy => ?_, fun hx => ?_⟩, fun x y => ⟨fun hy => ?_, fun hx => ?_⟩⟩
  · have hx := hparenting x y (.inl hy)
    exact (h.parenting x hx y ((h.live x hx).1 hy)).mp hy
  · have hy := hparenting y x (.inr hx)
    exact (h.parenting x ((h.live y hy).2.1 hx) y hy).mpr hx
  · have hx := hdepending x y (.inl hy)
    exact (h.depending y ((h.live x hx).2.2.2 hy) x hx).mpr hy
  · have hy := hdepending y x (.inr hx)
    exact (h.depending y hy x ((h.live y hy).2.2.1 hx)).mp hx

/-- Both ends of a link change, in the one direction or in the other. -/
theorem Linked.setParenting (h : g.Linked) {links : TwoWay ν} (hmutual : links.Mutual)
    (hlive : links.Within g.live) : { g with parenting := links }.Linked :=
  ⟨hmutual, h.depending, hlive, h.depending_live⟩

theorem Linked.setDepending (h : g.Linked) {links : TwoWay ν} (hmutual : links.Mutual)
    (hlive : links.Within g.live) : { g with depending := links }.Linked :=
  ⟨h.parenting, hmutual, h.parenting_live, hlive⟩

end

variable {ν : Type} [DecidableEq ν] {g g' : Graph ν}

/-- The nodes that an operation is about exist, and a new one is where there is none. -/
def accepts (g : Graph ν) : Op ν → Bool
  | .construct this _ => this ∉ g.live
  | .copyConstruct this other => this ∉ g.live && other ∈ g.live
  | .destroy this => this ∈ g.live
  | .assign this n | .addChild this n | .addDepended this n | .addDependency this n
  | .addParent this n | .removeChild this n | .removeDepended this n | .removeDependency this n
  | .removeParent this n => this ∈ g.live && n ∈ g.live

def perform (g : Graph ν) : Op ν → Graph ν
  | .construct this now => g.construct this now
  | .copyConstruct this other => g.copyConstruct this other
  | .assign this other => g.assign this other
  | .destroy this => g.destroy this
  | .addChild this n => g.settle (g.addChild this n)
  | .addDepended this n => g.settle (g.addDepended this n)
  | .addDependency this n => g.settle (g.addDependency this n)
  | .addParent this n => g.settle (g.addParent this n)
  | .removeChild this n => g.removeChild this n
  | .removeDepended this n => g.removeDepended this n
  | .removeDependency this n => g.removeDependency this n
  | .removeParent this n => g.removeParent this n

/-- One operation, if a program can do it. -/
def step (g : Graph ν) (op : Op ν) : Option (Graph ν) :=
  if g.accepts op then some (g.perform op) else none

def run (ops : List (Op ν)) : Option (Graph ν) := ops.foldlM step empty

/-- At every moment of a run the links are symmetric. -/
def AlwaysSymmetric (ops : List (Op ν)) : Prop :=
  ∀ pre g, pre <+: ops → run pre = some g → g.Symmetric

/-- The links of a node that is assigned to, but for one to itself, are links of the other. -/
def Harmless (g : Graph ν) : Op ν → Prop
  | .assign this other =>
    this ≠ other → g.parenting.Covers other this ∧ g.depending.Covers other this
  | _ => True

/-- Every assignment of a run is harmless. -/
def HarmlessRun (ops : List (Op ν)) : Prop :=
  ∀ pre op g g', pre ++ [op] <+: ops → run pre = some g → g.step op = some g' → g.Harmless op

/-! ## One operation -/

theorem Linked.allocate (h : g.Linked) {this : ν} (hnew : this ∉ g.live) :
    (g.allocate this).Linked := by
  rw [Graph.allocate, h.parenting_live.clear_eq hnew, h.depending_live.clear_eq hnew]
  exact ⟨h.parenting, h.depending, h.parenting_live.mono (Finset.subset_insert _ _),
    h.depending_live.mono (Finset.subset_insert _ _)⟩

theorem Linked.internalCopy_iff (h : g.Linked) {this n : ν} (hthis : this ∈ g.live)
    (hne : this ≠ n) : (g.internalCopy this n).Symmetric ↔
      g.parenting.Covers n this ∧ g.depending.Covers n this := by
  rw [← TwoWay.mutual_copyTo_iff h.parenting hne, ← TwoWay.mutual_copyTo_iff h.depending hne]
  have hparenting : (g.parenting.copyTo this n).Within g.live :=
    h.parenting_live.copyTo h.parenting hthis
  have hdepending : (g.depending.copyTo this n).Within g.live :=
    h.depending_live.copyTo h.depending hthis
  constructor
  · intro hsym
    exact hsym.mutual hparenting hdepending
  · rintro ⟨hp, hd⟩
    have hlinked : (g.internalCopy this n).Linked := ⟨hp, hd, hparenting, hdepending⟩
    exact hlinked.symmetric

theorem Linked.internalCopy (h : g.Linked) {this n : ν} (hthis : this ∈ g.live) (hne : this ≠ n)
    (hsym : (g.internalCopy this n).Symmetric) : (g.internalCopy this n).Linked :=
  have hcovers := (h.internalCopy_iff hthis hne).mp hsym
  ⟨(TwoWay.mutual_copyTo_iff h.parenting hne).mpr hcovers.1,
    (TwoWay.mutual_copyTo_iff h.depending hne).mpr hcovers.2,
    h.parenting_live.copyTo h.parenting hthis, h.depending_live.copyTo h.depending hthis⟩

/-- A copy of a node has no links of its own to lose. -/
theorem Linked.copyConstruct (h : g.Linked) {this other : ν} (hnew : this ∉ g.live)
    (hother : other ∈ g.live) : (g.copyConstruct this other).Linked := by
  have hne : this ≠ other := fun he => hnew (he ▸ hother)
  have hallocate := h.allocate hnew
  have hthis : this ∈ (g.allocate this).live := Finset.mem_insert_self _ _
  refine hallocate.internalCopy hthis hne ((hallocate.internalCopy_iff hthis hne).mpr ?_)
  rw [Graph.allocate, h.parenting_live.clear_eq hnew, h.depending_live.clear_eq hnew]
  exact ⟨h.parenting_live.covers hnew, h.depending_live.covers hnew⟩

theorem Linked.destroy (h : g.Linked) (this : ν) : (g.destroy this).Linked where
  parenting := h.parenting.forget this
  depending := h.depending.forget this
  parenting_live := h.parenting_live.forget h.parenting this
  depending_live := h.depending_live.forget h.depending this

/-- An insertion writes a link at both its ends, or nothing. -/
theorem Linked.settle (h : g.Linked) {links : TwoWay ν} {f : TwoWay ν → Graph ν} {this n : ν}
    {id : NodeId} {role opposite : String} (hf : (f (links.link this n)).Linked) :
    (g.settle ((insertLink links this n id role opposite).map f)).Linked := by
  unfold insertLink
  split
  · exact h
  · exact hf

theorem Linked.addParenting (h : g.Linked) {this n : ν} (hthis : this ∈ g.live) (hn : n ∈ g.live) :
    { g with parenting := g.parenting.link this n }.Linked :=
  h.setParenting (h.parenting.link this n) (h.parenting_live.link hthis hn)

theorem Linked.addDepending (h : g.Linked) {this n : ν} (hthis : this ∈ g.live) (hn : n ∈ g.live) :
    { g with depending := g.depending.link this n }.Linked :=
  h.setDepending (h.depending.link this n) (h.depending_live.link hthis hn)

/-- **One operation** keeps the links symmetric exactly when it is harmless. -/
theorem Linked.step (h : g.Linked) {op : Op ν} (hstep : g.step op = some g') :
    (g'.Symmetric ↔ g.Harmless op) ∧ (g'.Symmetric → g'.Linked) := by
  have hkeeps : g'.Linked → g.Harmless op →
      (g'.Symmetric ↔ g.Harmless op) ∧ (g'.Symmetric → g'.Linked) := fun hlinked hop =>
    ⟨iff_of_true hlinked.symmetric hop, fun _ => hlinked⟩
  unfold Graph.step at hstep
  split at hstep
  · rename_i haccepts
    cases hstep
    cases op with
    | construct this now =>
      obtain ⟨hp, hd, hplive, hdlive⟩ := h.allocate (of_decide_eq_true haccepts)
      exact hkeeps ⟨hp, hd, hplive, hdlive⟩ trivial
    | copyConstruct this other =>
      obtain ⟨hnew, hother⟩ := Bool.and_eq_true_iff.mp haccepts
      exact hkeeps (h.copyConstruct (of_decide_eq_true hnew) (of_decide_eq_true hother)) trivial
    | assign this other =>
      obtain ⟨hthis, -⟩ := Bool.and_eq_true_iff.mp haccepts
      simp only [perform, Graph.assign, Harmless]
      split
      · rename_i hne
        rw [h.internalCopy_iff (of_decide_eq_true hthis) hne]
        refine ⟨⟨fun hcovers _ => hcovers, fun hcovers => hcovers hne⟩, fun hcovers => ?_⟩
        exact h.internalCopy (of_decide_eq_true hthis) hne
          ((h.internalCopy_iff (of_decide_eq_true hthis) hne).mpr hcovers)
      · rename_i hne
        exact ⟨iff_of_true h.symmetric fun hne' => absurd hne' hne, fun _ => h⟩
    | destroy this => exact hkeeps (h.destroy this) trivial
    | addChild this n =>
      obtain ⟨hthis, hn⟩ := Bool.and_eq_true_iff.mp haccepts
      exact hkeeps (h.settle (h.addParenting (of_decide_eq_true hthis) (of_decide_eq_true hn))) trivial
    | addDepended this n =>
      obtain ⟨hthis, hn⟩ := Bool.and_eq_true_iff.mp haccepts
      exact hkeeps (h.settle (h.addDepending (of_decide_eq_true hthis) (of_decide_eq_true hn))) trivial
    | addDependency this n =>
      -- the link is written from its other end
      obtain ⟨hthis, hn⟩ := Bool.and_eq_true_iff.mp haccepts
      exact hkeeps (h.settle (h.addDepending (of_decide_eq_true hn) (of_decide_eq_true hthis))) trivial
    | addParent this n =>
      obtain ⟨hthis, hn⟩ := Bool.and_eq_true_iff.mp haccepts
      exact hkeeps (h.settle (h.addParenting (of_decide_eq_true hn) (of_decide_eq_true hthis))) trivial
    | removeChild this n =>
      exact hkeeps (h.setParenting (h.parenting.unlink this n) (h.parenting_live.unlink this n)) trivial
    | removeDepended this n =>
      exact hkeeps (h.setDepending (h.depending.unlink this n) (h.depending_live.unlink this n)) trivial
    | removeDependency this n =>
      exact hkeeps (h.setDepending (h.depending.unlink n this) (h.depending_live.unlink n this)) trivial
    | removeParent this n =>
      exact hkeeps (h.setParenting (h.parenting.unlink n this) (h.parenting_live.unlink n this)) trivial
  · cases hstep

/-! ## Every run -/

theorem run_concat (pre : List (Op ν)) (op : Op ν) :
    run (pre ++ [op]) = (run pre).bind fun g => g.step op := by
  simp [run, List.foldlM_append]

/-- While the links are symmetric no set has a pointer to what is no node. -/
theorem linked_run {ops : List (Op ν)} (h : AlwaysSymmetric ops) (hrun : run ops = some g) :
    g.Linked := by
  induction ops using List.reverseRecOn generalizing g with
  | nil =>
    cases hrun
    exact linked_empty
  | append_singleton pre op ih =>
    rw [run_concat] at hrun
    obtain ⟨g₀, hpre, hstep⟩ := Option.bind_eq_some_iff.mp hrun
    have hsym : g.Symmetric := h (pre ++ [op]) g (List.prefix_refl _) (by rw [run_concat, hpre]; exact hstep)
    exact ((ih (fun p g hp => h p g (hp.trans (List.prefix_append _ _))) hpre).step hstep).2 hsym

/-- **Links at both ends.** At every moment of a run each link is in the sets of both its nodes and
no set has a destroyed node, if and only if every assignment is to a node whose links the other
node has, too. -/
theorem symmetric_iff (ops : List (Op ν)) : AlwaysSymmetric ops ↔ HarmlessRun ops := by
  constructor
  · intro h pre op g g' hpre hrun hstep
    have hlinked := linked_run (fun p g hp => h p g (hp.trans ((List.prefix_append _ _).trans hpre))) hrun
    have hsym := h (pre ++ [op]) g' hpre (by rw [run_concat, hrun]; exact hstep)
    exact (hlinked.step hstep).1.mp hsym
  · intro h
    induction ops using List.reverseRecOn with
    | nil =>
      intro pre g hpre hrun
      obtain rfl := List.prefix_nil.mp hpre
      cases hrun
      exact linked_empty.symmetric
    | append_singleton ops op ih =>
      have hbefore : AlwaysSymmetric ops :=
        ih fun pre op g g' hpre => h pre op g g' (hpre.trans (List.prefix_append _ _))
      intro pre g hpre hrun
      rcases List.prefix_concat_iff.mp hpre with rfl | hpre
      · rw [run_concat] at hrun
        obtain ⟨g₀, hrun₀, hstep⟩ := Option.bind_eq_some_iff.mp hrun
        have hharmless := h ops op g₀ g (List.prefix_refl _) hrun₀ hstep
        exact ((linked_run hbefore hrun₀).step hstep).1.mpr hharmless
      · exact hbefore pre g hpre hrun

/-- A node that has a parent is overwritten by one that has none: the parent keeps it as a child. -/
def overwritten : List (Op ℕ) :=
  [.construct 1 10, .construct 2 10, .construct 3 10, .addParent 2 1, .assign 2 3]

theorem not_symmetric : ¬ ∀ ops : List (Op ℕ), AlwaysSymmetric ops := by
  intro h
  have hsym := h overwritten overwritten _ (List.prefix_refl _) rfl
  exact absurd ((hsym.parenting 1 (by decide) 2 (by decide)).mp (by decide)) (by decide)

/-- Once it is destroyed, the parent has a pointer to nothing. -/
example : (run (overwritten ++ [.destroy 2])).map (fun g => (g.live, g.children 1)) =
    some ({1, 3}, {2}) := by
  decide

end Graph

end CentreonBroker.Correlation
