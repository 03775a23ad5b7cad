import CentreonBroker.PersistentCache

/-!
# The multiplexing engine

The engine sends what is published to all its subscribers, or keeps it while it is
stopped: always in `_kiew`, and after a `stop` in the transaction of a persistent cache
too. `start` sends what the cache has and what `_kiew` has; `unload` commits the
transaction, for the next process.

Hooks are left out: an engine has none unless it is given some. What a subscriber does
with an event is a parameter; it may throw.
-/

namespace CentreonBroker.Multiplexing

open PersistentCache

/-- What `_write_func` may be. -/
inductive WriteFunc where
  | nop
  | writeToCacheFile
  | write
  deriving DecidableEq, Repr

/-- The members of `engine`, with `M` for a subscriber. -/
structure Engine (α M : Type) where
  kiew : List α
  muxers : List M
  write_func : WriteFunc
  cache_file : Option (Cache α)

/-- `_instance`, and the files under `_cache_file_path()`. -/
structure Process (α M : Type) where
  instance_ : Option (Engine α M)
  fs : Files Name

/-- The calls. A list is published event by event, and a single event is a list of one. -/
inductive EngineOp (α M : Type) where
  | load
  | unload
  | start
  | stop
  | publish (es : List α)
  | subscribe (m : M)

namespace Engine

variable {α M : Type} [EventCodec α]

/-- The constructor. -/
def init : Engine α M := ⟨[], [], .nop, none⟩

section Send

variable (deliver : α → M → Bool × M)

/-- The loop over `_muxers` for one event. It ends on the first one that throws. -/
def sendToAll (e : α) : List M → Bool × List M
  | [] => (false, [])
  | m :: ms =>
    match deliver e m with
    | (true, m) => (true, m :: ms)
    | (false, m) =>
      let (threw, ms) := sendToAll e ms
      (threw, m :: ms)

/-- `_send_to_subscribers`, on `_kiew`. An event is popped once everyone has it. -/
def sendToSubscribers : List α → List M → Bool × List α × List M
  | [], ms => (false, [], ms)
  | e :: kiew, ms =>
    match sendToAll deliver e ms with
    | (true, ms) => (true, e :: kiew, ms)
    | (false, ms) => sendToSubscribers kiew ms

def send (g : Engine α M) : Bool × Engine α M :=
  let (threw, kiew, muxers) := sendToSubscribers deliver g.kiew g.muxers
  (threw, { g with kiew := kiew, muxers := muxers })

/-- `_write_to_cache_file`. What `add` throws is caught. -/
def writeToCacheFile (e : α) (g : Engine α M) : Engine α M :=
  { g with cache_file := g.cache_file.map fun c => (add e c).getD c }

/-- `_publish`. -/
def publishOne (e : α) (g : Engine α M) : Bool × Engine α M :=
  let g := { g with kiew := g.kiew ++ [e] }
  match g.write_func with
  | .nop => (false, g)
  | .writeToCacheFile => (false, writeToCacheFile e g)
  | .write => send deliver g

/-- `publish`. -/
def publish : List α → Engine α M → Bool × Engine α M
  | [], g => (false, g)
  | e :: es, g =>
    match publishOne deliver e g with
    | (true, g) => (true, g)
    | (false, g) => publish es g

/-- A `persistent_cache` that is read to its end and destroyed. -/
def readCache (fs : Files Name) : List α × Files Name :=
  let (r, fs) := openRead fs
  (r.2, fs.append .cache r.1)

/-- `start`. Its local queue is published event by event, and is lost if one throws. -/
def start (g : Engine α M) (fs : Files Name) : Bool × Engine α M × Files Name :=
  if g.write_func = .write then (false, g, fs)
  else
    let (cached, fs) := readCache fs
    let (threw, g') := publish deliver (cached ++ g.kiew) { g with write_func := .write, kiew := [] }
    (threw, g', fs)

/-- `_cache_file.reset(...)`, for what was there before. -/
def closeCache (cache_file : Option (Cache α)) (fs : Files Name) : Files Name :=
  match cache_file with
  | some c => closeRead c (closeWrite c fs)
  | none => fs

/-- `stop`. The new cache is opened before the one it takes the place of is closed. -/
def stop (g : Engine α M) (fs : Files Name) : Bool × Engine α M × Files Name :=
  if g.write_func = .nop then (false, g, fs)
  else
    match send deliver g with
    | (true, g) => (true, g, fs)
    | (false, g) =>
      let (r, fs) := openRead fs
      let fs := closeCache g.cache_file fs
      let g := { g with write_func := .writeToCacheFile }
      match transaction ⟨some r, none⟩ fs with
      | some (c, fs) => (false, { g with cache_file := some c }, fs)
      | none => (false, { g with cache_file := none }, fs)

/-- `unload`. An instance whose commit throws stays. -/
def unload (g : Engine α M) (fs : Files Name) : Option (Engine α M) × Files Name :=
  match g.cache_file with
  | none => (none, fs)
  | some c =>
    match commit c fs with
    | (.threw, c, fs) => (some { g with cache_file := some c }, fs)
    | (_, c, fs) => (none, closeCache (some c) fs)

/-- One call. Those of an instance that is not loaded do nothing: it must not be called. -/
def step (op : EngineOp α M) (p : Process α M) : Bool × Process α M :=
  match op, p.instance_ with
  | .load, none => (false, { p with instance_ := some init })
  | .unload, some g =>
    let (g, fs) := unload g p.fs
    (g.isSome, ⟨g, fs⟩)
  | .start, some g =>
    let (threw, g, fs) := start deliver g p.fs
    (threw, ⟨some g, fs⟩)
  | .stop, some g =>
    let (threw, g, fs) := stop deliver g p.fs
    (threw, ⟨some g, fs⟩)
  | .publish es, some g =>
    let (threw, g) := publish deliver es g
    (threw, { p with instance_ := some g })
  | .subscribe m, some g => (false, { p with instance_ := some { g with muxers := g.muxers ++ [m] } })
  | _, _ => (false, p)

/-- Calls, one after the other. -/
def run (ops : List (EngineOp α M)) (p : Process α M) : Process α M :=
  ops.foldl (fun p op => (step deliver op p).2) p

end Send

end Engine

end CentreonBroker.Multiplexing
