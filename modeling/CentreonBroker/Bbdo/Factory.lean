import CentreonBroker.Bbdo.Negotiate

/-!
# The extensions of a configured endpoint

The factory of BBDO asks each registered protocol whether an endpoint wants it, and
writes the names down in the order of the map they are registered in. The layers
that can be negotiated are never part of the configured stack: their `has_endpoint`
always answers false. So two peers ask for words in one order, none of which runs.
-/

namespace CentreonBroker.Bbdo

/-- `io::factory::flag`. -/
inductive Flag where
  | no
  | maybe
  | yes
  deriving DecidableEq

/-- `config::endpoint`, of which the factories read the type and the parameters. -/
structure EndpointConfig where
  type : Word
  params : List (Word × Word)

/-- `strncasecmp` of two strings, their final zeros included. -/
def sameNoCase (v w : Word) : Bool := v.map Char.toLower = w.map Char.toLower

/-- The flag that a parameter stands for; another value leaves what the variable held. -/
def layerFlag (key : Word) (cfg : EndpointConfig) (flag : Flag) : Flag :=
  match cfg.params.lookup key with
  | none => .no
  | some v =>
    if sameNoCase v "no".toList then .no
    else if sameNoCase v "auto".toList then .maybe
    else if sameNoCase v "yes".toList then .yes
    else flag

/-- `protocols::protocol`, with what `has_endpoint` of its factory answers. -/
structure Protocol where
  osi_from : Nat
  osi_to : Nat
  has_endpoint : EndpointConfig → Flag → Bool × Flag

def tlsProtocol : Protocol := ⟨5, 5, fun cfg flag => (false, layerFlag "tls".toList cfg flag)⟩

def compressionProtocol : Protocol :=
  ⟨6, 6, fun cfg flag => (false, layerFlag "compression".toList cfg flag)⟩

/-- `io::protocols`: a map, in the order of the names. -/
structure Protocols where
  entries : List (Word × Protocol)
  sorted : (entries.map Prod.fst).Pairwise (· < ·)
  nonempty : ∀ e ∈ entries, e.1 ≠ []
  /-- Only these two are registered between the second layer and the sixth. -/
  between : ∀ e ∈ entries, 1 < e.2.osi_from → e.2.osi_to < 7 →
    e = (tls, tlsProtocol) ∨ e = (compression, compressionProtocol)

/-- A name is appended, after a space unless it is the first. -/
def appendName (extensions name : Word) : Word :=
  (if extensions ≠ [] then extensions ++ [' '] else extensions) ++ name

/-- Whether the endpoint supports the layer of a protocol, and the flag it was given. -/
def supports (unset : Flag) (cfg : EndpointConfig) (p : Protocol) : Bool :=
  let (has, flag) := p.has_endpoint cfg unset
  1 < p.osi_from ∧ p.osi_to < 7 ∧ (has ∨ flag ≠ .no)

/-- The layer is in the mandatory extensions as well. -/
def demands (unset : Flag) (cfg : EndpointConfig) (p : Protocol) : Bool :=
  supports unset cfg p ∧ (p.has_endpoint cfg unset).2 = .yes

/--
`factory::_extensions`: all the extensions, and the mandatory ones. `unset` is what the
local variable `flag` holds before it is set, for each protocol.
-/
def factoryExtensions (unset : Word → Flag) (cfg : EndpointConfig) :
    List (Word × Protocol) → Word × Word → Word × Word
  | [], acc => acc
  | (name, p) :: entries, (extensions, mandatory) =>
    factoryExtensions unset cfg entries
      (if supports (unset name) cfg p then appendName extensions name else extensions,
        if demands (unset name) cfg p then appendName mandatory name else mandatory)

/-- `_negotiate`, as `factory::new_endpoint` sets it. -/
def negotiationAllowed (cfg : EndpointConfig) : Bool :=
  cfg.params.lookup "negotiation".toList ≠ some "no".toList

/-- The BBDO stream of an endpoint that `factory::new_endpoint` made. -/
def newPeer (protocols : Protocols) (unset : Word → Flag) (cfg : EndpointConfig) (coarse : Bool)
    (opens : Bool → Word → Bool) : Peer where
  negotiate := !coarse && negotiationAllowed cfg
  extensions :=
    if coarse then ([], []) else factoryExtensions unset cfg protocols.entries ([], [])
  protocols := protocols.entries.map Prod.fst
  opens := opens

/-- Each layer under BBDO is there because the endpoint has it. -/
def Configured (protocols : Protocols) (cfg : EndpointConfig) (layers : List Word) : Prop :=
  ∀ name ∈ layers, ∃ p flag, (name, p) ∈ protocols.entries ∧ (p.has_endpoint cfg flag).1 = true

/-! ## The words of a string of extensions -/

theorem split_appendName {extensions name : Word} (he : extensions ≠ []) (hn : ' ' ∉ name) :
    split (appendName extensions name) ' ' = split extensions ' ' ++ [name] := by
  rw [appendName, if_pos he, List.append_assoc, split, List.singleton_append,
    List.splitOn_append_cons_self, List.splitOn_eq_singleton hn]
  rfl

/-- The names that pass a test, joined as `factory::_extensions` does. -/
def joinNames (passes : Word × Protocol → Bool) : List (Word × Protocol) → Word → Word
  | [], acc => acc
  | e :: entries, acc => joinNames passes entries (if passes e then appendName acc e.1 else acc)

theorem factoryExtensions_eq (unset : Word → Flag) (cfg : EndpointConfig) :
    ∀ entries acc, factoryExtensions unset cfg entries acc =
      (joinNames (fun e => supports (unset e.1) cfg e.2) entries acc.1,
        joinNames (fun e => demands (unset e.1) cfg e.2) entries acc.2)
  | [], _ => rfl
  | (_, _) :: entries, (_, _) => factoryExtensions_eq unset cfg entries _

/-- The names that pass a test. -/
def passing (passes : Word × Protocol → Bool) (entries : List (Word × Protocol)) : List Word :=
  (entries.filter passes).map Prod.fst

theorem split_joinNames {passes : Word × Protocol → Bool} :
    ∀ {entries : List (Word × Protocol)} {acc : Word},
      (∀ e ∈ entries, passes e → e.1 ≠ [] ∧ ' ' ∉ e.1) → acc ≠ [] →
      split (joinNames passes entries acc) ' ' = split acc ' ' ++ passing passes entries := by
  intro entries
  induction entries with
  | nil => intro acc _ _; exact (List.append_nil _).symm
  | cons e entries ih =>
    intro acc hp ha
    have hp' := fun e' he' => hp e' (List.mem_cons_of_mem e he')
    rw [joinNames, passing, List.filter_cons]
    by_cases he : passes e
    · have hne : appendName acc e.1 ≠ [] := by simp [appendName, ha]
      rw [if_pos he, if_pos he, ih hp' hne,
        split_appendName ha (hp e List.mem_cons_self he).2, List.append_assoc]
      rfl
    · rw [if_neg he, if_neg he, ih hp' ha]
      rfl

/-- The words of what is joined are the names; the empty string is one empty word. -/
theorem split_joinNames_nil {passes : Word × Protocol → Bool} :
    ∀ {entries : List (Word × Protocol)},
      (∀ e ∈ entries, passes e → e.1 ≠ [] ∧ ' ' ∉ e.1) →
      split (joinNames passes entries []) ' ' =
        if passing passes entries = [] then [[]] else passing passes entries := by
  intro entries
  induction entries with
  | nil => intro _; rfl
  | cons e entries ih =>
    intro hp
    have hp' := fun e' he' => hp e' (List.mem_cons_of_mem e he')
    rw [joinNames, passing, List.filter_cons]
    by_cases he : passes e
    · obtain ⟨hne, hsp⟩ := hp e List.mem_cons_self he
      have h1 : appendName [] e.1 = e.1 := rfl
      rw [if_pos he, if_pos he, h1, split_joinNames hp' hne, split,
        List.splitOn_eq_singleton hsp, List.map_cons, if_neg (List.cons_ne_nil _ _)]
      rfl
    · rw [if_neg he, if_neg he]
      exact ih hp'

/-! ## Two configured endpoints -/

section Configured

variable {protocols : Protocols} {unset : Word → Flag} {cfg : EndpointConfig} {coarse : Bool}
  {opens : Bool → Word → Bool}

variable {e : Word × Protocol}

theorem supports_layer (he : e ∈ protocols.entries)
    (hs : supports (unset e.1) cfg e.2) : e = (tls, tlsProtocol) ∨ e = (compression, compressionProtocol) := by
  have h := of_decide_eq_true hs
  exact protocols.between e he h.1 h.2.1

theorem demands_supports (hd : demands (unset e.1) cfg e.2) :
    supports (unset e.1) cfg e.2 :=
  (of_decide_eq_true hd).1

theorem layer_name
    (h : e = (tls, tlsProtocol) ∨ e = (compression, compressionProtocol)) :
    e.1 ≠ [] ∧ ' ' ∉ e.1 := by
  rcases h with rfl | rfl
  · exact ⟨by decide, by decide⟩
  · exact ⟨by decide, by decide⟩

/-- What a configured peer asks for is the names of some registered layers. -/
theorem newPeer_words : ∃ passes : Word × Protocol → Bool,
    (∀ e ∈ protocols.entries, passes e →
      e = (tls, tlsProtocol) ∨ e = (compression, compressionProtocol)) ∧
    (newPeer protocols unset cfg coarse opens).words =
      if passing passes protocols.entries = [] then [[]] else passing passes protocols.entries := by
  cases coarse with
  | true =>
    refine ⟨fun _ => false, ?_, ?_⟩
    · intro e _ h; cases h
    · simp [Peer.words, Peer.asked, newPeer, passing, split]
  | false =>
    by_cases hn : negotiationAllowed cfg
    · refine ⟨fun e => supports (unset e.1) cfg e.2, fun e he h => supports_layer he h, ?_⟩
      rw [← split_joinNames_nil fun e he h => layer_name (supports_layer he h)]
      simp [Peer.words, Peer.asked, newPeer, hn, factoryExtensions_eq]
    · refine ⟨fun e => demands (unset e.1) cfg e.2,
        fun e he h => supports_layer he (demands_supports h), ?_⟩
      rw [← split_joinNames_nil fun e he h => layer_name (supports_layer he (demands_supports h))]
      simp [Peer.words, Peer.asked, newPeer, hn, factoryExtensions_eq]

theorem newPeer_words_sorted :
    (newPeer protocols unset cfg coarse opens).words.Pairwise (· < ·) := by
  obtain ⟨passes, -, hw⟩ := @newPeer_words protocols unset cfg coarse opens
  rw [hw]
  split
  · exact List.pairwise_singleton _ _
  · exact protocols.sorted.sublist (List.filter_sublist.map _)

/-- A word that a peer asks for is a layer that it has, and that is not configured. -/
theorem mem_newPeer_words {w : Word}
    (h : w ∈ (newPeer protocols unset cfg coarse opens).words) (hne : w ≠ []) :
    ∃ p, (w, p) ∈ protocols.entries ∧ ∀ flag, (p.has_endpoint cfg flag).1 = false := by
  obtain ⟨passes, hp, hw⟩ := @newPeer_words protocols unset cfg coarse opens
  rw [hw] at h
  split at h
  · exact absurd (List.mem_singleton.mp h) hne
  · obtain ⟨⟨name, p⟩, he, rfl⟩ := List.mem_map.mp h
    obtain ⟨he, hpass⟩ := List.mem_filter.mp he
    refine ⟨p, he, ?_⟩
    rcases hp _ he hpass with h' | h'
    · rw [(Prod.mk.inj h').2]; exact fun _ => rfl
    · rw [(Prod.mk.inj h').2]; exact fun _ => rfl

theorem entry_unique {w : Word} {p q : Protocol} (hp : (w, p) ∈ protocols.entries)
    (hq : (w, q) ∈ protocols.entries) : p = q := by
  exact (Prod.mk.inj (List.inj_on_of_nodup_map protocols.sorted.nodup hp hq rfl)).2

variable {layers : List Word}

theorem newPeer_not_running {w : Word}
    (hc : Configured protocols cfg layers)
    (h : w ∈ (newPeer protocols unset cfg coarse opens).words) (hne : w ≠ []) : w ∉ layers := by
  intro hl
  obtain ⟨p, hp, hno⟩ := mem_newPeer_words h hne
  obtain ⟨q, flag, hq, hyes⟩ := hc w hl
  rw [entry_unique hq hp, hno] at hyes
  cases hyes

theorem newPeer_dropped {peer_ext : List Word} (hc : Configured protocols cfg layers) :
    dropped layers peer_ext (newPeer protocols unset cfg coarse opens).words = [] := by
  refine List.eq_nil_iff_forall_not_mem.mpr fun w hw => ?_
  obtain ⟨hmem, -, hne, hrun⟩ := mem_dropped.mp hw
  exact newPeer_not_running hc hmem hne hrun

theorem mem_newPeer_added {peer_ext : List Word} {w : Word} :
    w ∈ added (newPeer protocols unset cfg coarse opens) layers peer_ext
        (newPeer protocols unset cfg coarse opens).words ↔
      w ∈ (newPeer protocols unset cfg coarse opens).words ∧ w ∈ peer_ext ∧ w ∉ layers ∧
        w ≠ [] := by
  rw [mem_added]
  constructor
  · rintro ⟨hmem, hp, hl, hreg⟩
    obtain ⟨e, he, rfl⟩ := List.mem_map.mp hreg
    exact ⟨hmem, hp, hl, protocols.nonempty e he⟩
  · rintro ⟨hmem, hp, hl, hne⟩
    obtain ⟨p, he, -⟩ := mem_newPeer_words hmem hne
    exact ⟨hmem, hp, hl, List.mem_map.mpr ⟨_, he, rfl⟩⟩

end Configured

/-- **The factory makes strings that agree**, whatever the two configurations are. -/
theorem newPeer_same {protocols protocols' : Protocols} {unset unset' : Word → Flag}
    {cfg cfg' : EndpointConfig} {coarse coarse' : Bool} {opens opens' : Bool → Word → Bool}
    {layers : List Word} (h : Configured protocols cfg layers)
    (h' : Configured protocols' cfg' layers) :
    SameExtensions (newPeer protocols unset cfg coarse opens)
      (newPeer protocols' unset' cfg' coarse' opens') layers where
  added := by
    refine List.Pairwise.eq_of_mem_iff (newPeer_words_sorted.filter _)
      (newPeer_words_sorted.filter _) fun w => ?_
    have h1 := @mem_newPeer_added protocols unset cfg coarse opens layers
      (newPeer protocols' unset' cfg' coarse' opens').words w
    have h2 := @mem_newPeer_added protocols' unset' cfg' coarse' opens' layers
      (newPeer protocols unset cfg coarse opens).words w
    exact h1.trans ((and_left_comm).trans h2.symm)
  kept_by_first := newPeer_dropped h
  kept_by_second := newPeer_dropped h'

/--
**Two peers agree on their layers** if they add the same words in the same order and do
not name a running layer alone, and only then; two configured endpoints always do. Whatever they
name, a side that drops running layers only, each as often as it runs, dereferences no null.
-/
theorem negotiation_agrees :
    (∀ a b layers, SameExtensions a b layers → Agree a b layers) ∧
    (∀ a b layers, ((dropped layers b.words a.words).Subperm layers →
        (handshake a b layers).1 ≠ .error .nullSubstream) ∧
      ((dropped layers a.words b.words).Subperm layers →
        (handshake a b layers).2 ≠ .error .nullSubstream)) ∧
    (∀ a b layers s, handshake a b layers = (.ok s, .ok s) → SameExtensions a b layers) ∧
    ∀ (protocols protocols' : Protocols) (unset unset' : Word → Flag)
      (cfg cfg' : EndpointConfig) (coarse coarse' : Bool) (opens opens' : Bool → Word → Bool)
      (layers : List Word), Configured protocols cfg layers → Configured protocols' cfg' layers →
      SameExtensions (newPeer protocols unset cfg coarse opens)
        (newPeer protocols' unset' cfg' coarse' opens') layers := by
  refine ⟨?_, handshake_not_null, ?_, ?_⟩
  · intro a b layers h
    obtain ⟨hfirst, hsecond⟩ := handshake_not_null a b layers
    exact ⟨hfirst (by rw [h.kept_by_first]; exact List.nil_subperm),
      hsecond (by rw [h.kept_by_second]; exact List.nil_subperm),
      fun s t hst => (handshake_same hst).mpr h⟩
  · intro a b layers s h
    exact (handshake_same h).mp rfl
  · intro protocols protocols' unset unset' cfg cfg' coarse coarse' opens opens' layers h h'
    exact newPeer_same h h'

/-- `has_endpoint` of TCP. -/
def tcpProtocol : Protocol :=
  ⟨1, 4, fun cfg _ => (cfg.type = "ip".toList ∨ cfg.type = "tcp".toList ∨
    cfg.type = "ipv4".toList ∨ cfg.type = "ipv6".toList, .no)⟩

/-- Those that a broker registers for a connection. -/
def connectionProtocols : Protocols where
  entries := [("TCP".toList, tcpProtocol), (tls, tlsProtocol), (compression, compressionProtocol)]
  sorted := by decide
  nonempty := by decide
  between := by
    intro e he h1 h2
    simp only [List.mem_cons, List.not_mem_nil, or_false] at he
    rcases he with rfl | rfl | rfl
    · exact absurd h1 (by decide)
    · exact .inl rfl
    · exact .inr rfl

/-- An endpoint over TCP that has TLS if it can, and compression too. -/
def autoConfig : EndpointConfig :=
  ⟨"tcp".toList, [("tls".toList, "auto".toList), ("compression".toList, "auto".toList)]⟩

/-- One that has TLS only, and must have it. -/
def tlsConfig : EndpointConfig := ⟨"ipv4".toList, [("tls".toList, "yes".toList)]⟩

def connectionPeer (cfg : EndpointConfig) : Peer :=
  newPeer connectionProtocols (fun _ => .no) cfg false fun _ _ => true

/-- A peer that the same words were given to by hand, in some order. -/
def handPeer (extensions : Word) : Peer :=
  ⟨true, (extensions, []), [tls, compression], fun _ _ => true⟩

/-- TLS over TCP, on both sides. Where TLS is running and only one names it, that one removes it. -/
theorem negotiation_agrees_tls :
    Agree (connectionPeer autoConfig) (connectionPeer tlsConfig) ["TCP".toList] ∧
    handshake (connectionPeer autoConfig) (connectionPeer tlsConfig) ["TCP".toList] =
      (.ok [tls, "TCP".toList], .ok [tls, "TCP".toList]) ∧
    SameExtensions (connectionPeer autoConfig) (connectionPeer tlsConfig) ["TCP".toList] ∧
    (handshake (handPeer tls) (handPeer []) ["file".toList, tls]).1 = .ok ["file".toList] ∧
    (handshake (handPeer tls) (handPeer []) ["file".toList, tls]).1 ≠ .error .nullSubstream := by
  have hrun : handshake (connectionPeer autoConfig) (connectionPeer tlsConfig) ["TCP".toList] =
      (.ok [tls, "TCP".toList], .ok [tls, "TCP".toList]) := by decide
  have hconf : ∀ cfg, (cfg = autoConfig ∨ cfg = tlsConfig) →
      Configured connectionProtocols cfg ["TCP".toList] := by
    intro cfg hcfg name hname
    refine ⟨tcpProtocol, .no, by rw [List.mem_singleton.mp hname]; exact List.mem_cons_self, ?_⟩
    rcases hcfg with rfl | rfl <;> decide
  have hsame := negotiation_agrees.2.2.2 connectionProtocols connectionProtocols (fun _ => .no)
    (fun _ => .no) autoConfig tlsConfig false false (fun _ _ => true) (fun _ _ => true)
    ["TCP".toList] (hconf _ (.inl rfl)) (hconf _ (.inr rfl))
  have hdropped : dropped ["file".toList, tls] (handPeer []).words (handPeer tls).words =
      [tls] := by decide
  exact ⟨negotiation_agrees.1 _ _ _ hsame, hrun, negotiation_agrees.2.2.1 _ _ _ _ hrun, by decide,
    (negotiation_agrees.2.1 _ _ _).1 (hdropped ▸ (List.sublist_cons_self _ _).subperm)⟩

/-- **The order matters**: each side puts the last word of its own list on top. -/
theorem not_agree_other_order :
    ¬ Agree (handPeer "TLS compression".toList) (handPeer "compression TLS".toList)
        ["TCP".toList] := by
  intro h
  have hrun : handshake (handPeer "TLS compression".toList) (handPeer "compression TLS".toList)
      ["TCP".toList] =
      (.ok [compression, tls, "TCP".toList], .ok [tls, compression, "TCP".toList]) := by decide
  exact absurd (h.2.2 _ _ hrun) (by decide)

end CentreonBroker.Bbdo
