import CentreonBroker.Lib.Keyed

/-!
# The watchdog

An instance of the watchdog stands for a process of `cbd`. The watchdog forks it, and waits for it
when it has exited or when it was told to stop. Its children are the processes that it forked and
did not wait for: one that has exited is still a child.

The kernel is a parameter: which pid it gives to a child, from how many were forked before and from
the pids that the other children have. A fork is taken to succeed.
-/

namespace CentreonBroker.Watchdog

/-! ## Configurations -/

/-- `instance_configuration`. -/
structure InstanceConfiguration where
  name : String
  executable : String
  config_file : String
  run : Bool
  reload : Bool
  deriving DecidableEq

namespace InstanceConfiguration

/-- The default constructor. -/
def blank : InstanceConfiguration := ⟨"", "", "", false, false⟩

/-- The reload flag is not looked at: a process that differs in it only is the same process. -/
def same_child (c other : InstanceConfiguration) : Bool :=
  c.name == other.name && c.executable == other.executable &&
    c.config_file == other.config_file && c.run == other.run

def is_empty (c : InstanceConfiguration) : Bool := c.name == ""

/-- What is executed. -/
def command (c : InstanceConfiguration) : String × String := (c.executable, c.config_file)

end InstanceConfiguration

/-- The instances by their names. The parser refuses a name that is empty, or that is there
already. -/
abbrev Instances := Keyed InstanceConfiguration.name fun c => c.is_empty = false

/-- `configuration`. The name of the log file has no part in what follows. -/
structure Configuration where
  instances : Instances

namespace Configuration

/-- The configuration of an instance, or an empty one. -/
def get_instance_configuration (name : String) (cfg : Configuration) : InstanceConfiguration :=
  (cfg.instances.find name).getD .blank

def instance_exists (name : String) (cfg : Configuration) : Bool := (cfg.instances.find name).isSome

end Configuration

/-! ## Processes -/

/-- A child of the watchdog, and what it executes. -/
structure Child where
  pid : ℕ
  executable : String
  config_file : String
  /-- It has exited, and nobody waited for it. -/
  exited : Bool

inductive Signal where
  | hup
  | term
  deriving DecidableEq

/-- The children, how many were forked, and the signals that were sent. -/
structure Os where
  children : Keyed Child.pid fun _ => True
  forks : ℕ
  sent : List (ℕ × Signal)

namespace Os

def kill (pid : ℕ) (signal : Signal) (os : Os) : Os :=
  { os with sent := os.sent ++ [(pid, signal)] }

/-- `waitpid`, on a child that has exited. -/
def waitpid (pid : ℕ) (os : Os) : Os := { os with children := os.children.erase pid }

/-- A child exits. -/
def exit (pid : ℕ) (os : Os) : Os :=
  match os.children.find pid with
  | none => os
  | some c => { os with children := os.children.insert { c with exited := true } trivial }

end Os

/-- `instance`. -/
structure Instance where
  config : InstanceConfiguration
  started : Bool
  pid : ℕ

namespace Instance

section Kernel

variable (kernel : ℕ → List ℕ → ℕ)

/-- `exec_process`: the pid of the child, and the child. -/
def exec_process (c : InstanceConfiguration) (os : Os) : ℕ × Os :=
  let pid := kernel os.forks (os.children.values.map Child.pid)
  (pid, { os with
    children := os.children.insert ⟨pid, c.executable, c.config_file, false⟩ trivial
    forks := os.forks + 1 })

def start (i : Instance) (os : Os) : Instance × Os :=
  if i.started = false ∧ i.config.run = true then
    ({ i with started := true, pid := (exec_process kernel i.config os).1 },
      (exec_process kernel i.config os).2)
  else (i, os)

/-- The constructor. -/
def new (c : InstanceConfiguration) (os : Os) : Instance × Os :=
  if c.run then start kernel ⟨c, false, 0⟩ os else (⟨c, false, 0⟩, os)

def restart (i : Instance) (os : Os) : Instance × Os := start kernel { i with started := false } os

end Kernel

/-- A configuration of another process is refused. -/
def merge_configuration (new_config : InstanceConfiguration) (i : Instance) : Instance :=
  if i.config.same_child new_config then { i with config := new_config } else i

def update (i : Instance) (os : Os) : Os :=
  if i.started && i.config.reload then os.kill i.pid .hup else os

/-- A child that does not exit within fifteen seconds is killed; it is waited for in any case. -/
def stop (i : Instance) (os : Os) : Os :=
  if i.started then (os.kill i.pid .term).waitpid i.pid else os

end Instance

/-! ## The main loop -/

/-- `config` and `instances`, and the children. -/
structure World where
  config : Configuration
  instances : Keyed (Prod.fst : String × Instance → String) fun _ => True
  os : Os

namespace World

/-- When the watchdog starts. -/
def start : World := ⟨⟨Keyed.empty⟩, Keyed.empty, ⟨Keyed.empty, 0, []⟩⟩

section Apply

variable (cfg : Configuration)

/-- An instance that the new configuration does not have. -/
def gone (c : InstanceConfiguration) : Bool := (cfg.get_instance_configuration c.name).is_empty

/-- One that it has, as another process. -/
def changed (c : InstanceConfiguration) : Bool :=
  !gone cfg c && !c.same_child (cfg.get_instance_configuration c.name)

/-- One that it has, as the same process. -/
def same (c : InstanceConfiguration) : Bool :=
  !gone cfg c && c.same_child (cfg.get_instance_configuration c.name)

variable (old : Configuration)

def to_delete : List String :=
  (old.instances.values.filter fun c => gone cfg c || changed cfg c).map InstanceConfiguration.name

def to_update : List String :=
  (old.instances.values.filter (same cfg)).map InstanceConfiguration.name

/-- Those that change, then those that are new. The source goes through both at once, in the order of a
`std::set`. -/
def to_create : List String :=
  (old.instances.values.filter (changed cfg)).map InstanceConfiguration.name ++
    (cfg.instances.values.filter fun c => !old.instance_exists c.name).map
      InstanceConfiguration.name

/-- An old process goes. -/
def delete (w : World) (name : String) : World :=
  match w.instances.find name with
  | none => w
  | some (_, i) => { w with instances := w.instances.erase name, os := i.stop w.os }

/-- A process is told about its new configuration. -/
def update (w : World) (name : String) : World :=
  match w.instances.find name with
  | none => w
  | some (_, i) =>
    let i := i.merge_configuration (cfg.get_instance_configuration name)
    { w with instances := w.instances.insert (name, i) trivial, os := i.update w.os }

variable (kernel : ℕ → List ℕ → ℕ)

/-- A process starts. `insert` does nothing where the name is there. -/
def create (w : World) (name : String) : World :=
  let (i, os) := Instance.new kernel (cfg.get_instance_configuration name) w.os
  { w with
    instances :=
      if (w.instances.find name).isSome then w.instances else w.instances.insert (name, i) trivial
    os }

end Apply

variable (kernel : ℕ → List ℕ → ℕ)

def apply_new_configuration (cfg : Configuration) (w : World) : World :=
  let w₁ := (to_delete cfg w.config).foldl delete w
  let w₂ := (to_update cfg w.config).foldl (update cfg) w₁
  { (to_create cfg w.config).foldl (create cfg kernel) w₂ with config := cfg }

/-- The loop through the instances, when a child was waited for. -/
def restartStopped (stopped_pid : ℕ) (w : World) (entry : String × Instance) : World :=
  if entry.2.pid = stopped_pid then
    let (i, os) := entry.2.restart kernel w.os
    { w with instances := w.instances.insert (entry.1, i) trivial, os }
  else w

/-- `waitpid(0, &status, WNOHANG)` in the main loop, when it returns the pid of a child. -/
def reap (stopped_pid : ℕ) (w : World) : World :=
  match w.os.children.find stopped_pid with
  | none => w
  | some c =>
    if c.exited then
      w.instances.values.foldl (restartStopped kernel stopped_pid)
        { w with os := w.os.waitpid stopped_pid }
    else w

/-- The end of `main`. -/
def stop (w : World) : World :=
  w.instances.values.foldl (fun w entry => { w with os := entry.2.stop w.os }) w

inductive Action where
  /-- At the start and on a SIGHUP, when the file could be parsed. -/
  | apply (cfg : Configuration)
  /-- A child exits, by itself. -/
  | exit (pid : ℕ)
  /-- The main loop waits for a child. -/
  | reap (pid : ℕ)

def step (w : World) : Action → World
  | .apply cfg => w.apply_new_configuration kernel cfg
  | .exit pid => { w with os := w.os.exit pid }
  | .reap pid => w.reap kernel pid

def run (actions : List Action) : World := actions.foldl (step kernel) start

end World

end CentreonBroker.Watchdog
