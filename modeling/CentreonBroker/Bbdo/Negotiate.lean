import Mathlib.Data.List.Perm.Subperm
import Mathlib.Data.List.Sort

/-!
# Negotiation of the extensions of BBDO

Once connected, each peer announces the extensions it has, reads what the other
announces, and edits the stack of layers under its BBDO stream: a word that both
announce becomes a layer, a running layer that the other does not announce is taken
away. Each side walks its own list, against the layers that ran before the walk.

The walk has a closed form, `applyExtensions_ok`: what it pushes does not depend on
what it removes. Two peers with the same layers can then be compared list by list.
-/

namespace CentreonBroker.Bbdo

/-- A `std::string`: the name of a layer, or a list of such names. -/
abbrev Word := List Char

/-- `misc::string::split`, which keeps the empty words. -/
def split (str : Word) (sep : Char) : List Word := str.splitOn sep

/-- What `negotiate` throws, and the null substream that it may dereference. -/
inductive NegotiationError where
  /-- Waiting for `version_response`, but nothing was received. -/
  | noVersionResponse
  | wrongVersion (major minor patch : Nat)
  /-- `protocol does not support feature negotiation`. -/
  | noFeatureNegotiation (proto_name : Word)
  /-- The layer could not be opened over the stream. -/
  | notOpened (proto_name : Word)
  | nullSubstream
  deriving DecidableEq

inductive NegotiationType where
  | negotiate_first
  | negotiate_second
  deriving DecidableEq

structure VersionResponse where
  bbdo_major : Nat
  bbdo_minor : Nat
  bbdo_patch : Nat
  extensions : Word
  deriving DecidableEq

def bbdoVersionMajor : Nat := 2
def bbdoVersionMinor : Nat := 0
def bbdoVersionPatch : Nat := 0

def tls : Word := "TLS".toList
def compression : Word := "compression".toList

/-- A BBDO stream that negotiates, and what it runs on. -/
structure Peer where
  negotiate : Bool
  /-- `_extensions`: all of them, and those that are mandatory. -/
  extensions : Word × Word
  /-- The names in `io::protocols`. -/
  protocols : List Word
  /-- Whether a layer opens, as an acceptor or not: TLS may not. -/
  opens : Bool → Word → Bool

/-- The extensions that a peer asks for. -/
def Peer.asked (p : Peer) : Word := if p.negotiate then p.extensions.1 else p.extensions.2

/-- `own_ext`, and what is `peer_ext` for the other. -/
def Peer.words (p : Peer) : List Word := split p.asked ' '

def Peer.welcomePacket (p : Peer) : VersionResponse :=
  ⟨bbdoVersionMajor, bbdoVersionMinor, bbdoVersionPatch, p.asked⟩

/-- `new_stream` of the factory of a protocol: the name of the stream that it makes. -/
def newStream (p : Peer) (is_acceptor : Bool) (proto_name : Word) :
    Except NegotiationError Word :=
  if proto_name = tls ∨ proto_name = compression then
    if p.opens is_acceptor proto_name then .ok proto_name else .error (.notOpened proto_name)
  else .error (.noFeatureNegotiation proto_name)

/-- The `while` loop that removes a layer, from the stream `parent` on. -/
def removeUnder (ext : Word) : List Word → Except NegotiationError (List Word)
  | [] => .ok []
  | [_] => .error .nullSubstream
  | parent :: substream :: below =>
    if substream = ext then .ok (parent :: below)
    else do
      let below ← removeUnder ext (substream :: below)
      .ok (parent :: below)

/-- The removal of a layer that is no more needed. -/
def removeLayer (ext : Word) : List Word → Except NegotiationError (List Word)
  | [] => .error .nullSubstream
  | substream :: below =>
    if substream = ext then .ok below else removeUnder ext (substream :: below)

/-- One turn of the loop over `own_ext`: the layers are those under BBDO, down to the wire. -/
def applyExtension (p : Peer) (is_acceptor : Bool) (running_config peer_ext : List Word)
    (layers : List Word) (ext : Word) : Except NegotiationError (List Word) :=
  if ext ∈ peer_ext then
    if ext ∉ running_config then
      if ext ∈ p.protocols then do
        let s ← newStream p is_acceptor ext
        .ok (s :: layers)
      else .ok layers
    else .ok layers
  else if ext ≠ [] then
    if ext ∈ running_config then removeLayer ext layers else .ok layers
  else .ok layers

def applyExtensions (p : Peer) (is_acceptor : Bool) (running_config peer_ext : List Word) :
    List Word → List Word → Except NegotiationError (List Word)
  | [], layers => .ok layers
  | ext :: own_ext, layers => do
    let layers ← applyExtension p is_acceptor running_config peer_ext layers ext
    applyExtensions p is_acceptor running_config peer_ext own_ext layers

/-- What `negotiate` writes before it reads. -/
def hello (p : Peer) : NegotiationType → List VersionResponse
  | .negotiate_first => [p.welcomePacket]
  | .negotiate_second => []

/-- The rest of `negotiate`: what it writes, and the layers that it leaves. -/
def answer (p : Peer) (neg : NegotiationType) (layers : List Word) :
    Option VersionResponse → List VersionResponse × Except NegotiationError (List Word)
  | none => ([], .error .noVersionResponse)
  | some v =>
    if v.bbdo_major ≠ bbdoVersionMajor then
      ([], .error (.wrongVersion v.bbdo_major v.bbdo_minor v.bbdo_patch))
    else
      (if neg = .negotiate_second then [p.welcomePacket] else [],
        applyExtensions p (neg = .negotiate_second) layers (split v.extensions ' ') p.words layers)

/-- `negotiate` of a connector and of an acceptor, over the same layers. -/
def handshake (connector acceptor : Peer) (layers : List Word) :
    Except NegotiationError (List Word) × Except NegotiationError (List Word) :=
  let forward := hello connector .negotiate_first
  let (back, accepted) := answer acceptor .negotiate_second layers forward.head?
  let (_, connected) :=
    answer connector .negotiate_first layers (hello acceptor .negotiate_second ++ back).head?
  (connected, accepted)

theorem handshake_eq (a b : Peer) (layers : List Word) :
    handshake a b layers =
      (applyExtensions a false layers b.words a.words layers,
        applyExtensions b true layers a.words b.words layers) := by
  simp [handshake, hello, answer, Peer.welcomePacket, Peer.words]

/-! ## What a walk does -/

/-- The word becomes a layer. -/
def Adds (p : Peer) (running_config peer_ext : List Word) (ext : Word) : Prop :=
  ext ∈ peer_ext ∧ ext ∉ running_config ∧ ext ∈ p.protocols

/-- The layer of that name is no more needed. -/
def Drops (running_config peer_ext : List Word) (ext : Word) : Prop :=
  ext ∉ peer_ext ∧ ext ≠ [] ∧ ext ∈ running_config

instance (p : Peer) (running_config peer_ext : List Word) :
    DecidablePred (Adds p running_config peer_ext) :=
  fun _ => inferInstanceAs (Decidable (_ ∧ _ ∧ _))

instance (running_config peer_ext : List Word) : DecidablePred (Drops running_config peer_ext) :=
  fun _ => inferInstanceAs (Decidable (_ ∧ _ ∧ _))

/-- The words of a list that become layers. -/
def added (p : Peer) (running_config peer_ext own_ext : List Word) : List Word :=
  own_ext.filter fun ext => Adds p running_config peer_ext ext

/-- The words of a list whose layers are no more needed. -/
def dropped (running_config peer_ext own_ext : List Word) : List Word :=
  own_ext.filter fun ext => Drops running_config peer_ext ext

section Words

variable {p : Peer} {running_config peer_ext own_ext : List Word} {ext : Word}

theorem added_cons_pos (h : Adds p running_config peer_ext ext) :
    added p running_config peer_ext (ext :: own_ext) =
      ext :: added p running_config peer_ext own_ext :=
  List.filter_cons_of_pos (by simpa using h)

theorem added_cons_neg (h : ¬ Adds p running_config peer_ext ext) :
    added p running_config peer_ext (ext :: own_ext) =
      added p running_config peer_ext own_ext :=
  List.filter_cons_of_neg (by simpa using h)

theorem dropped_cons_pos (h : Drops running_config peer_ext ext) :
    dropped running_config peer_ext (ext :: own_ext) =
      ext :: dropped running_config peer_ext own_ext :=
  List.filter_cons_of_pos (by simpa using h)

theorem dropped_cons_neg (h : ¬ Drops running_config peer_ext ext) :
    dropped running_config peer_ext (ext :: own_ext) = dropped running_config peer_ext own_ext :=
  List.filter_cons_of_neg (by simpa using h)

theorem mem_added : ext ∈ added p running_config peer_ext own_ext ↔
    ext ∈ own_ext ∧ Adds p running_config peer_ext ext := by
  simp [added]

theorem mem_dropped : ext ∈ dropped running_config peer_ext own_ext ↔
    ext ∈ own_ext ∧ Drops running_config peer_ext ext := by
  simp [dropped]

end Words

theorem removeUnder_eq (ext : Word) : ∀ parent below,
    removeUnder ext (parent :: below) =
      if ext ∈ below then .ok (parent :: below.erase ext) else .error .nullSubstream := by
  intro parent below
  induction below generalizing parent with
  | nil => rfl
  | cons substream below ih =>
    rw [removeUnder]
    by_cases h : substream = ext
    · subst h
      simp
    · rw [if_neg h, ih, List.erase_cons_tail (by simpa using h)]
      by_cases hm : ext ∈ below
      · rw [if_pos hm, if_pos (List.mem_cons_of_mem _ hm)]; rfl
      · rw [if_neg hm, if_neg (by simp [hm, Ne.symm h])]; rfl

/-- The first layer of that name goes, and there must be one. -/
theorem removeLayer_eq (ext : Word) (layers : List Word) :
    removeLayer ext layers =
      if ext ∈ layers then .ok (layers.erase ext) else .error .nullSubstream := by
  cases layers with
  | nil => rfl
  | cons substream below =>
    rw [removeLayer]
    by_cases h : substream = ext
    · subst h
      simp
    · rw [if_neg h, removeUnder_eq, List.erase_cons_tail (by simpa using h)]
      by_cases hm : ext ∈ below
      · rw [if_pos hm, if_pos (List.mem_cons_of_mem _ hm)]
      · rw [if_neg hm, if_neg (by simp [hm, Ne.symm h])]

variable {is_acceptor : Bool}

theorem newStream_ok {p : Peer} {ext s : Word}
    (h : newStream p is_acceptor ext = .ok s) : s = ext := by
  unfold newStream at h
  split at h
  · split at h
    · exact (Except.ok.inj h).symm
    · cases h
  · cases h

theorem newStream_not_null (p : Peer) (is_acceptor : Bool) (ext : Word) :
    newStream p is_acceptor ext ≠ .error .nullSubstream := by
  unfold newStream
  split
  · split <;> simp
  · simp

variable {layers : List Word}

/-- **One turn of the loop**: it pushes a layer, takes one away, or does nothing. -/
theorem applyExtension_cases {p : Peer} {running_config peer_ext : List Word}
    {s : List Word} {ext : Word}
    (h : applyExtension p is_acceptor running_config peer_ext layers ext = .ok s) :
    (Adds p running_config peer_ext ext ∧ ¬ Drops running_config peer_ext ext ∧
      s = ext :: layers) ∨
    (¬ Adds p running_config peer_ext ext ∧ Drops running_config peer_ext ext ∧
      ext ∈ layers ∧ s = layers.erase ext) ∨
    (¬ Adds p running_config peer_ext ext ∧ ¬ Drops running_config peer_ext ext ∧
      s = layers) := by
  unfold applyExtension at h
  unfold Adds Drops
  by_cases hp : ext ∈ peer_ext
  · rw [if_pos hp] at h
    by_cases hr : ext ∈ running_config
    · rw [if_neg (not_not_intro hr)] at h
      exact .inr (.inr ⟨fun ha => ha.2.1 hr, fun hd => hd.1 hp, (Except.ok.inj h).symm⟩)
    rw [if_pos hr] at h
    by_cases hk : ext ∈ p.protocols
    · rw [if_pos hk] at h
      rcases hn : newStream p is_acceptor ext with e | t
      · rw [hn] at h; cases h
      · rw [hn] at h
        have hs : t :: layers = s := Except.ok.inj h
        exact .inl ⟨⟨hp, hr, hk⟩, fun hd => hd.1 hp, by rw [← hs, newStream_ok hn]⟩
    · rw [if_neg hk] at h
      exact .inr (.inr ⟨fun ha => hk ha.2.2, fun hd => hd.1 hp, (Except.ok.inj h).symm⟩)
  · rw [if_neg hp] at h
    by_cases hd : ext ≠ [] ∧ ext ∈ running_config
    · rw [if_pos hd.1, if_pos hd.2, removeLayer_eq] at h
      by_cases hm : ext ∈ layers
      · rw [if_pos hm] at h
        exact .inr (.inl ⟨fun ha => hp ha.1, ⟨hp, hd⟩, hm, (Except.ok.inj h).symm⟩)
      · rw [if_neg hm] at h; cases h
    · have hs : layers = s := by
        split at h
        · rename_i hne
          rw [if_neg fun hr => hd ⟨hne, hr⟩] at h
          exact Except.ok.inj h
        · exact Except.ok.inj h
      exact .inr (.inr ⟨fun ha => hp ha.1, fun h' => hd h'.2, hs.symm⟩)

/-- A layer that is no more needed is missing: nothing else dereferences null. -/
theorem applyExtension_null {p : Peer} {running_config peer_ext : List Word}
    {ext : Word}
    (h : applyExtension p is_acceptor running_config peer_ext layers ext =
      .error .nullSubstream) : Drops running_config peer_ext ext ∧ ext ∉ layers := by
  unfold applyExtension at h
  split at h
  · split at h
    · split at h
      · rcases hn : newStream p is_acceptor ext with e | t
        · rw [hn] at h
          have he : e = .nullSubstream := Except.error.inj h
          exact absurd (he ▸ hn) (newStream_not_null p is_acceptor ext)
        · rw [hn] at h; cases h
      · cases h
    · cases h
  · rename_i hp
    split at h
    · rename_i hne
      split at h
      · rename_i hr
        rw [removeLayer_eq] at h
        by_cases hm : ext ∈ layers
        · rw [if_pos hm] at h; cases h
        · exact ⟨⟨hp, hne, hr⟩, hm⟩
      · cases h
    · cases h

/--
**The walk of one side**, when it ends: the new layers are on top, the last one first, and
the layers that are no more needed were all there.
-/
theorem applyExtensions_ok {p : Peer} {running_config peer_ext : List Word} :
    ∀ {own_ext layers s : List Word},
      applyExtensions p is_acceptor running_config peer_ext own_ext layers = .ok s →
      (dropped running_config peer_ext own_ext).Subperm layers ∧
      s = (added p running_config peer_ext own_ext).reverse ++
        layers.diff (dropped running_config peer_ext own_ext) := by
  intro own_ext
  induction own_ext with
  | nil =>
    intro layers s h
    exact ⟨List.nil_subperm, (Except.ok.inj h).symm⟩
  | cons ext own_ext ih =>
    intro layers s h
    rw [applyExtensions] at h
    rcases hx : applyExtension p is_acceptor running_config peer_ext layers ext with e | l
    · rw [hx] at h; cases h
    rw [hx] at h
    obtain ⟨hsub, hs⟩ := ih h
    rcases applyExtension_cases hx with ⟨ha, hd, rfl⟩ | ⟨ha, hd, hm, rfl⟩ | ⟨ha, hd, rfl⟩
    · -- the word that is added is not one that is removed later
      have hnot : ext ∉ dropped running_config peer_ext own_ext :=
        fun hm => hd (mem_dropped.mp hm).2
      rw [dropped_cons_neg hd, added_cons_pos ha]
      constructor
      · have := hsub.erase ext
        rwa [List.erase_of_not_mem hnot, List.erase_cons_head] at this
      · rw [hs, List.cons_diff_of_not_mem hnot, List.reverse_cons, List.append_assoc]
        rfl
    · rw [dropped_cons_pos hd, added_cons_neg ha]
      constructor
      · exact ((List.subperm_cons ext).mpr hsub).trans (List.perm_cons_erase hm).symm.subperm
      · rw [hs, List.diff_cons]
    · rw [dropped_cons_neg hd, added_cons_neg ha]
      exact ⟨hsub, hs⟩

/-- Null is not dereferenced, as long as what is no more needed is there. -/
theorem applyExtensions_not_null {p : Peer}
    {running_config peer_ext : List Word} :
    ∀ {own_ext layers : List Word}, (dropped running_config peer_ext own_ext).Subperm layers →
      applyExtensions p is_acceptor running_config peer_ext own_ext layers ≠
        .error .nullSubstream := by
  intro own_ext
  induction own_ext with
  | nil => intro layers _ h; cases h
  | cons ext own_ext ih =>
    intro layers hsub h
    rw [applyExtensions] at h
    rcases hx : applyExtension p is_acceptor running_config peer_ext layers ext with e | l
    · rw [hx] at h
      obtain ⟨hd, hm⟩ := applyExtension_null (hx.trans h)
      rw [dropped_cons_pos hd] at hsub
      exact hm (hsub.subset List.mem_cons_self)
    · rw [hx] at h
      refine ih ?_ h
      rcases applyExtension_cases hx with ⟨_, hd, rfl⟩ | ⟨_, hd, _, rfl⟩ | ⟨_, hd, rfl⟩
      · rw [dropped_cons_neg hd] at hsub
        exact hsub.trans (List.sublist_cons_self ext layers).subperm
      · rw [dropped_cons_pos hd] at hsub
        have := hsub.erase ext
        rwa [List.erase_cons_head] at this
      · rwa [dropped_cons_neg hd] at hsub

/-! ## Both walks -/

/--
Over these layers, both peers add the same words, in the same order and as many times,
and no running layer is asked for by one of them only.
-/
structure SameExtensions (a b : Peer) (layers : List Word) : Prop where
  added : added a layers b.words a.words = added b layers a.words b.words
  kept_by_first : dropped layers b.words a.words = []
  kept_by_second : dropped layers a.words b.words = []

/-- The new layers are those that were not running. -/
theorem filter_not_running {p : Peer} {peer_ext own_ext gone : List Word} :
    ((added p layers peer_ext own_ext).reverse ++ layers.diff gone).filter (· ∉ layers) =
      (added p layers peer_ext own_ext).reverse := by
  have h1 : ∀ w ∈ (added p layers peer_ext own_ext).reverse, w ∉ layers :=
    fun w hw => (mem_added.mp (List.mem_reverse.mp hw)).2.2.1
  have h2 : ∀ w ∈ layers.diff gone, w ∈ layers := fun w hw => List.diff_subset _ _ hw
  rw [List.filter_append, List.filter_eq_self.mpr (by simpa using h1),
    List.filter_eq_nil_iff.mpr (by simpa using h2), List.append_nil]

/--
If both sides are left with the same running layers, then they dropped the same ones: but
a word that one side drops is a word of its own list, which the other does not drop.
-/
theorem dropped_eq_nil {w w' : List Word}
    (h : (dropped layers w' w).Subperm layers) (h' : (dropped layers w w').Subperm layers)
    (he : layers.diff (dropped layers w' w) = layers.diff (dropped layers w w')) :
    dropped layers w' w = [] := by
  have hp := List.subperm_append_diff_self_of_count_le (List.subperm_ext_iff.mp h)
  have hp' := List.subperm_append_diff_self_of_count_le (List.subperm_ext_iff.mp h')
  rw [he] at hp
  have hd := (List.perm_append_right_iff _).mp (hp.trans hp'.symm)
  refine List.eq_nil_iff_forall_not_mem.mpr fun x hx => ?_
  exact (mem_dropped.mp (hd.subset hx)).2.1 (mem_dropped.mp hx).1

theorem handshake_same {a b : Peer} {s t : List Word}
    (h : handshake a b layers = (.ok s, .ok t)) : s = t ↔ SameExtensions a b layers := by
  rw [handshake_eq] at h
  obtain ⟨ha, hs⟩ := applyExtensions_ok (Prod.mk.inj h).1
  obtain ⟨hb, ht⟩ := applyExtensions_ok (Prod.mk.inj h).2
  constructor
  · intro hst
    have hadd : (added a layers b.words a.words).reverse =
        (added b layers a.words b.words).reverse := by
      rw [← filter_not_running, ← hs, hst, ht, filter_not_running]
    rw [hs, ht, hadd] at hst
    have hdiff := List.append_cancel_left hst
    exact ⟨List.reverse_injective hadd, dropped_eq_nil ha hb hdiff, dropped_eq_nil hb ha hdiff.symm⟩
  · intro hx
    rw [hs, ht, hx.added, hx.kept_by_first, hx.kept_by_second]

/-- Neither side dereferences null, and when both end they are left with the same layers. -/
def Agree (a b : Peer) (layers : List Word) : Prop :=
  (handshake a b layers).1 ≠ .error .nullSubstream ∧
  (handshake a b layers).2 ≠ .error .nullSubstream ∧
  ∀ s t, handshake a b layers = (.ok s, .ok t) → s = t

/-- **The removal loop is safe** on a side whose dropped words are all running, each as often as it
is named. -/
theorem handshake_not_null (a b : Peer) (layers : List Word) :
    ((dropped layers b.words a.words).Subperm layers →
        (handshake a b layers).1 ≠ .error .nullSubstream) ∧
      ((dropped layers a.words b.words).Subperm layers →
        (handshake a b layers).2 ≠ .error .nullSubstream) := by
  rw [handshake_eq]
  exact ⟨applyExtensions_not_null, applyExtensions_not_null⟩

end CentreonBroker.Bbdo
