import CentreonBroker.Config.Endpoint

/-!
# The applier of endpoints

The running endpoints are in a map whose keys are the configurations of the root endpoints. To
apply a new list, `_diff_endpoints` takes the endpoints out of it tree by tree, and looks in the
map for the root of each tree; the trees whose root is not there are to be created, and the
running endpoints whose key was not met are to be deleted.

What the factories make of a configuration is a parameter: nothing if no protocol is for it,
else whether it is an acceptor.
-/

namespace CentreonBroker.Config

inductive Error where
  /-- Error while diff'ing new and old configuration: no entry is a root. -/
  | noRoot
  /-- Could not find a failover. -/
  | noFailover (failover name : String)
  /-- Could not find a secondary failover. -/
  | noSecondary (failover name : String)
  /-- Cannot allow an acceptor as failover. -/
  | acceptorFailover (failover name : String)
  /-- No matching type or protocol found for an endpoint. -/
  | noType (name : String)
  /-- The recursion does not end. -/
  | endless
  deriving DecidableEq, Repr

variable {J : Type}

/-- A `processing::failover`: what it is made of, and the secondary endpoints it was given. -/
structure Level (J : Type) where
  cfg : Endpoint J
  secondary : List (Endpoint J)
  deriving DecidableEq

/-- What runs: an acceptor, or a failover that has a failover of its own, and so on. -/
inductive Object (J : Type) where
  | acceptor (cfg : Endpoint J)
  | failover (levels : List (Level J))
  deriving DecidableEq

/-- An entry of `_endpoints`. The serial number tells an object from any other. -/
structure Running (J : Type) where
  key : Endpoint J
  object : Object J
  serial : ℕ

/-- The applier, and how many objects it has made. -/
structure Applier (J : Type) where
  endpoints : List (Running J)
  made : ℕ

def Applier.start : Applier J := ⟨[], 0⟩

/-! ## The trees of a list -/

/-- Is this entry a root of the list? -/
def isRoot (l : List (Endpoint J)) (e : Endpoint J) : Bool :=
  e.name == "" || !l.any fun parent => parent.failovers.contains e.name

/-- The failovers of an entry are taken out of the list, in order. -/
def takeFailovers (name : String) : List String → List (Endpoint J) →
    Except Error (List (Endpoint J) × List (Endpoint J))
  | [], rest => .ok ([], rest)
  | failover :: failovers, rest =>
    match rest.find? fun e => failover == e.name with
    | none => .error (.noFailover failover name)
    | some e => do
      let (found, rest) ←
        takeFailovers name failovers (rest.eraseP fun e => failover == e.name)
      .ok (e :: found, rest)

/-- The entries in `entries` that were not looked at, with all that is below them. -/
def subentries : ℕ → List (Endpoint J) → List (Endpoint J) →
    Except Error (List (Endpoint J) × List (Endpoint J))
  | _, [], rest => .ok ([], rest)
  | 0, _ :: _, _ => .error .endless
  | fuel + 1, entry :: entries, rest => do
    let (found, rest) ← takeFailovers entry.name entry.failovers rest
    let (others, rest) ← subentries fuel (entries ++ found) rest
    .ok (entry :: others, rest)

/-! ## The objects -/

section Objects

-- what the factories make of each configuration
variable (factory : Endpoint J → Option Bool)

/-- `_create_endpoint`: is it an acceptor? -/
def createEndpoint (cfg : Endpoint J) : Except Error Bool :=
  match factory cfg with
  | none => .error (.noType cfg.name)
  | some acceptor => .ok acceptor

/-- The secondary failovers. One that is an acceptor is only logged. -/
def createSecondary (l : List (Endpoint J)) (name : String) :
    List String → Except Error (List (Endpoint J))
  | [] => .ok []
  | failover :: failovers =>
    match l.find? fun e => failover == e.name with
    | none => .error (.noSecondary failover name)
    | some e => do
      let _ ← createEndpoint factory e
      let others ← createSecondary l name failovers
      .ok (e :: others)

/-- `add_secondary_endpoint`, on a failover that was just made. -/
def addSecondary (secondary : List (Endpoint J)) : List (Level J) → List (Level J)
  | [] => []
  | level :: levels => { level with secondary := level.secondary ++ secondary } :: levels

/-- `_create_failover`. -/
def createFailover (l : List (Endpoint J)) : ℕ → Endpoint J → Except Error (List (Level J))
  | 0, _ => .error .endless
  | fuel + 1, cfg =>
    match cfg.failovers with
    | [] => .ok [⟨cfg, []⟩]
    | front :: others =>
      match l.find? fun e => front == e.name with
      | none => .error (.noFailover front cfg.name)
      | some e => do
        let acceptor ← createEndpoint factory e
        if acceptor then .error (.acceptorFailover front cfg.name)
        else
          let levels ← createFailover l fuel e
          let secondary ← createSecondary factory l cfg.name others
          .ok (⟨cfg, []⟩ :: addSecondary secondary levels)

/-- A root endpoint is made. -/
def createRoot (l : List (Endpoint J)) (ep : Endpoint J) : Except Error (Object J) := do
  let acceptor ← createEndpoint factory ep
  if acceptor then .ok (.acceptor ep)
  else
    let levels ← createFailover factory l (l.length + 1) ep
    .ok (.failover levels)

end Objects

/-! ## The map of the running endpoints -/

variable [LinearOrder J] (factory : Endpoint J → Option Bool)

/-- `_endpoints.find`. -/
def findKey (ep : Endpoint J) (running : List (Running J)) : Option (Running J) :=
  running.find? fun r => ep.equiv r.key

/-- The loop through the new configuration. -/
def diffLoop (current : List (Running J)) : ℕ → List (Endpoint J) → List (Endpoint J) →
    List (Endpoint J) → Except Error (List (Endpoint J) × List (Endpoint J))
  | _, [], to_create, to_delete => .ok (to_create, to_delete)
  | 0, _ :: _, _, _ => .error .endless
  | fuel + 1, new_ep, to_create, to_delete =>
    match new_ep.find? (isRoot new_ep) with
    | none => .error .noRoot
    | some root => do
      let rest := new_ep.eraseP (isRoot new_ep)
      let (entries, rest) ← subentries (rest.length + 1) [root] rest
      match findKey root current with
      | none => diffLoop current fuel rest (to_create ++ entries) to_delete
      | some r => diffLoop current fuel rest to_create (to_delete.filter fun k => !k.eqv r.key)

/-- `_diff_endpoints`. -/
def diffEndpoints (current : List (Running J)) (new_endpoints : List (Endpoint J)) :
    Except Error (List (Endpoint J) × List (Endpoint J)) :=
  diffLoop current new_endpoints.length new_endpoints [] (current.map Running.key)

namespace Applier

/-- `_endpoints[ep] = endp`. -/
def set (ep : Endpoint J) (object : Object J) (st : Applier J) : Applier J :=
  { endpoints :=
      if (findKey ep st.endpoints).isSome then
        st.endpoints.map fun r => if ep.equiv r.key then ⟨r.key, object, st.made⟩ else r
      else st.endpoints ++ [⟨ep, object, st.made⟩]
    made := st.made + 1 }

/-- The old endpoints are removed. -/
def remove (to_delete : List (Endpoint J)) (st : Applier J) : Applier J :=
  { st with endpoints := st.endpoints.filter fun r => !to_delete.any fun ep => ep.equiv r.key }

/-- The new endpoints are created, up to the first that cannot be. -/
def create (l : List (Endpoint J)) : List (Endpoint J) → Applier J → Applier J × Option Error
  | [], st => (st, none)
  | ep :: eps, st =>
    if isRoot l ep then
      match createRoot factory l ep with
      | .error e => (st, some e)
      | .ok object => create l eps (st.set ep object)
    else create l eps st

/-- `apply`, with what it throws. -/
def apply (endpoints : List (Endpoint J)) (st : Applier J) : Applier J × Option Error :=
  match diffEndpoints st.endpoints endpoints with
  | .error e => (st, some e)
  | .ok (to_create, to_delete) => create factory to_create to_create (st.remove to_delete)

end Applier

end CentreonBroker.Config
