import HyperNet.Kernel.ConfigMgr
import HyperNet.Kernel.LogicMgr
import HyperNet.Logic.Malformed

/-! # How a process starts (kernel.cpp and the modules)

What `Initialize` and `Launched` of each module do, with the configuration and the command line.
They come in the order of a hash map: only the scripts, which one of them runs, depend on it. -/
namespace HyperNet.Kernel
open HyperNet.Core.Commuting HyperNet.Logic

/-- The modules there are. -/
inductive Module
  | cluster | harbor | http | master | redis | rpc | scriptEngine | starter
  deriving DecidableEq

/-- A `node` element of the configuration. -/
structure NodeConf where
  type : Int32
  name : List Char
  hide : Option (List Char)

/-- What the modules read of server_conf.xml. -/
structure ServerConf where
  masterIp : List Char
  masterPort : Int32
  send : Int32
  recv : Int32
  reconnect : Int32
  nodes : List NodeConf
  /-- Of the `http` element, if there is one. -/
  thread : Option Int32

/-- The modules that C makes for the scripts, `serverd.harbor` and `serverd.http`. -/
inductive ScriptModule
  | harbor | http
  deriving DecidableEq

/-- What a process finds at its start. -/
structure Env where
  conf : ServerConf
  args : Args
  /-- `Kernel::Listen` succeeds on a port. -/
  listens : Int32 → Bool
  /-- `Kernel::Connect` fails no assertion. -/
  connects : List Char → Int32 → Bool
  /-- main.lua runs to its end where these modules are loaded. -/
  main : (ScriptModule → Bool) → Bool

/-- The members of Harbor that `Initialize` sets. -/
@[ext] structure HarborMembers where
  sendBuffSize : Int32
  recvBuffSize : Int32
  reconnectTick : Int32
  self : NodeReport
  deriving DecidableEq

/-- A call of `Kernel::Listen`. -/
structure Listening where
  port : Int32
  sendSize : Int32
  recvSize : Int32
  deriving DecidableEq

/-- A call of `Kernel::Connect`. -/
structure Dialling where
  ip : List Char
  port : Int32
  sendSize : Int32
  recvSize : Int32
  deriving DecidableEq

/-- The process. -/
@[ext] structure Startup where
  harbor : Option HarborMembers
  handlers : Handlers Handler
  /-- The modules that Harbor tells of nodes. -/
  listeners : List Module
  listening : List Listening
  /-- `_ip` and `_port` of Cluster. -/
  masterAddress : Option (List Char × Int32)
  dialled : List Dialling
  /-- `Master::s_port` -/
  masterPort : Int32
  /-- `ScriptEngine::s_state` is there. -/
  state : Bool
  /-- `package.loaded`, with the functions of each module. -/
  loaded : ScriptModule → Option (List String)
  /-- What `require 'entry'` has come to. -/
  entry : Option Bool
  /-- The threads that Http has started. -/
  threads : Option Int32

def Startup.init : Startup where
  harbor := none
  handlers := fun _ _ => none
  listeners := []
  listening := []
  masterAddress := none
  dialled := []
  masterPort := 0
  state := false
  loaded := fun _ => none
  entry := none
  threads := none

/-! ## Harbor -/

/-- `GetCmdArg("name")` -/
def Env.name (e : Env) : Option (List Char) := e.args ['n', 'a', 'm', 'e']

/-- The `node` elements of the process; the last one says what type it has. -/
def Env.own (e : Env) (name : List Char) : List NodeConf :=
  e.conf.nodes.filter fun node => node.name == name

/-- `Harbor::Initialize` -/
def Harbor.members (e : Env) : Option HarborMembers := do
  let name ← e.name
  let node ← (e.own name).getLast?
  let nodeId ← (e.args ['n', 'o', 'd', 'e']).bind atoi
  let port ← (e.args ['p', 'o', 'r', 't']).elim (some 0) atoi
  if 0 < node.type then
    some ⟨e.conf.send, e.conf.recv, e.conf.reconnect, ⟨node.type, nodeId, port,
      (e.own name).any fun node => node.hide == some ['t', 'r', 'u', 'e']⟩⟩
  else none

def Harbor.init (e : Env) (s : Startup) : Option (Bool × Startup) :=
  (Harbor.members e).map fun members => (true, { s with harbor := some members })

/-- `Harbor::Launched` -/
def Harbor.launched (e : Env) (modules : List Module) (s : Startup) :
    Option (Bool × Startup) := do
  let members ← s.harbor
  let port := if Module.master ∈ modules then s.masterPort else members.self.port
  let s := { s with harbor := some { members with self := { members.self with port := port } } }
  if port = 0 then some (true, s)
  else if e.listens port then
    some (true, { s with
      listening := s.listening ++ [⟨port, members.sendBuffSize, members.recvBuffSize⟩] })
  else none

/-- `Harbor::RegProtocolHandler` -/
def regProtocolHandler (nodeType messageId : Int32) (handler : Handler) (s : Startup) : Startup :=
  let of := Function.update (s.handlers nodeType) messageId (some handler)
  { s with handlers := Function.update s.handlers nodeType of }

/-- `Harbor::AddNodeListener` -/
def addNodeListener (m : Module) (s : Startup) : Startup :=
  { s with listeners := s.listeners ++ [m] }

/-! ## Cluster and Master -/

def Cluster.init (e : Env) (s : Startup) : Option (Bool × Startup) :=
  some (true, { s with masterAddress := some (e.conf.masterIp, e.conf.masterPort) })

/-- `Cluster::Launched`; Harbor dials with its own buffer sizes. -/
def Cluster.launched (e : Env) (modules : List Module) (s : Startup) :
    Option (Bool × Startup) := do
  let (ip, port) ← s.masterAddress
  let members ← s.harbor
  if Module.harbor ∈ modules ∧ e.connects ip port = true then
    let s := { s with
      dialled := s.dialled ++ [⟨ip, port, members.sendBuffSize, members.recvBuffSize⟩] }
    some (true, regProtocolHandler 1 1 .newNodeComming s)
  else none

def Master.init (e : Env) (s : Startup) : Option (Bool × Startup) :=
  some (true, { s with masterPort := e.conf.masterPort })

def Master.launched (modules : List Module) (s : Startup) : Option (Bool × Startup) :=
  if Module.harbor ∈ modules then some (true, addNodeListener .master s) else none

/-! ## The scripts -/

/-- `ScriptEngine::CreateModule` -/
def createModule (m : ScriptModule) (s : Startup) : Option Startup :=
  if s.state then some { s with loaded := Function.update s.loaded m (some []) } else none

/-- `ScriptEngine::AddModuleFunction` -/
def addModuleFunction (m : ScriptModule) (s : Startup) (func : String) : Option Startup :=
  (s.loaded m).map fun funcs =>
    { s with loaded := Function.update s.loaded m (some (funcs ++ [func])) }

/-- The module is made with these functions. -/
def createModuleWith (m : ScriptModule) (funcs : List String) (s : Startup) :
    Option (Bool × Startup) := do
  let s ← createModule m s
  let s ← funcs.foldlM (addModuleFunction m) s
  some (true, s)

/-- `LoadLua` -/
def ScriptEngine.init (s : Startup) : Option (Bool × Startup) :=
  some (true, { s with state := true, loaded := fun _ => none })

/-- The functions that core/harbor.lua sets in `serverd.harbor`. -/
def callbacks : List String := ["onOpen", "onClose", "onCall", "onCallNoRet", "onRespone"]

/-- `ScriptEngine::Launched`: entry.lua requires core/harbor.lua, which requires `serverd.harbor`,
and then main.lua. -/
def ScriptEngine.launched (e : Env) (s : Startup) : Option (Bool × Startup) :=
  if s.state then
    match s.loaded .harbor with
    | some funcs =>
      let loaded := Function.update s.loaded .harbor (some (funcs ++ callbacks))
      let result := e.main fun m => (s.loaded m).isSome
      some (result, { s with loaded := loaded, entry := some result })
    | none => some (false, { s with entry := some false })
  else none

def Rpc.init (modules : List Module) (s : Startup) : Option (Bool × Startup) :=
  if Module.scriptEngine ∈ modules ∧ Module.harbor ∈ modules then
    some (true, addNodeListener .rpc (regProtocolHandler ANY_NODE 4 .onRespone
      (regProtocolHandler ANY_NODE 2 .onCallNoRet (regProtocolHandler ANY_NODE 3 .onCall s))))
  else none

/-- The functions of `serverd.harbor` that C gives it. -/
def rpcFunctions : List String := ["call", "callNoRet", "typeCall", "respone"]

def Rpc.launched (s : Startup) : Option (Bool × Startup) := createModuleWith .harbor rpcFunctions s

def Http.init (modules : List Module) (s : Startup) : Option (Bool × Startup) :=
  if Module.scriptEngine ∈ modules then some (true, s) else none

/-- `Http::Launched` -/
def Http.launched (e : Env) (s : Startup) : Option (Bool × Startup) := do
  let (_, s) ← createModuleWith .http ["get", "post"] s
  let thread ← e.conf.thread
  some (true, { s with threads := some thread })

/-! ## All modules -/

/-- What the modules of a process do. -/
def Env.lifecycle (e : Env) : Lifecycle Module Startup where
  init modules
    | .cluster => Cluster.init e
    | .harbor => Harbor.init e
    | .http => Http.init modules
    | .master => Master.init e
    | .rpc => Rpc.init modules
    | .scriptEngine => ScriptEngine.init
    | .redis | .starter => fun s => some (true, s)
  launched modules
    | .cluster => Cluster.launched e modules
    | .harbor => Harbor.launched e modules
    | .http => Http.launched e
    | .master => Master.launched modules
    | .rpc => Rpc.launched
    | .scriptEngine => ScriptEngine.launched e
    | .redis | .starter => fun s => some (true, s)

variable {e : Env} {modules : List Module} {m : Module} {s t : Startup}

theorem createModuleWith_eq (m : ScriptModule) (funcs : List String) (s : Startup) :
    createModuleWith m funcs s = if s.state then
      some (true, { s with loaded := Function.update s.loaded m (some funcs) }) else none := by
  have hadd : ∀ done (funcs : List String) (u : Startup), u.loaded m = some done →
      funcs.foldlM (addModuleFunction m) u =
        some { u with loaded := Function.update u.loaded m (some (done ++ funcs)) } := by
    intro done funcs
    induction funcs generalizing done with
    | nil =>
      intro u hu
      rw [List.append_nil, ← hu, Function.update_eq_self]
      rfl
    | cons func funcs ih =>
      intro u hu
      simp only [List.foldlM_cons, addModuleFunction, hu, Option.map_some, Option.bind_eq_bind,
        Option.bind_some]
      rw [ih (done ++ [func]) _ (Function.update_self ..)]
      simp
  unfold createModuleWith createModule
  split
  · simp [hadd []]
  · rfl

/-! ## What the modules come to -/

/-- What `Initialize` of a module comes to. -/
def Env.Initialises (e : Env) (modules : List Module) (s t : Startup) : Module → Prop
  | .cluster => { s with masterAddress := some (e.conf.masterIp, e.conf.masterPort) } = t
  | .harbor => ∃ members, Harbor.members e = some members ∧ { s with harbor := some members } = t
  | .http => Module.scriptEngine ∈ modules ∧ s = t
  | .master => { s with masterPort := e.conf.masterPort } = t
  | .rpc => (Module.scriptEngine ∈ modules ∧ Module.harbor ∈ modules) ∧
      addNodeListener .rpc (regProtocolHandler ANY_NODE 4 .onRespone (regProtocolHandler ANY_NODE 2
        .onCallNoRet (regProtocolHandler ANY_NODE 3 .onCall s))) = t
  | .scriptEngine => { s with state := true, loaded := fun _ => none } = t
  | .redis | .starter => s = t

theorem init_iff :
    ignoring (e.lifecycle.init modules) m s = some t ↔ e.Initialises modules s t m := by
  cases m <;> simp [ignoring, Env.lifecycle, Env.Initialises, Cluster.init, Harbor.init, Http.init,
    Master.init, Rpc.init, ScriptEngine.init]

/-- What `Launched` of a module comes to. -/
def Env.Launches (e : Env) (modules : List Module) (s t : Startup) : Module → Prop
  | .cluster => ∃ ip port members, s.masterAddress = some (ip, port) ∧ s.harbor = some members ∧
      (Module.harbor ∈ modules ∧ e.connects ip port = true) ∧
      regProtocolHandler 1 1 .newNodeComming { s with
        dialled := s.dialled ++ [⟨ip, port, members.sendBuffSize, members.recvBuffSize⟩] } = t
  | .harbor => ∃ members port, s.harbor = some members ∧
      port = (if Module.master ∈ modules then s.masterPort else members.self.port) ∧
      (port = 0 ∨ e.listens port = true) ∧
      { s with
        harbor := some { members with self := { members.self with port := port } }
        listening := s.listening ++ if port = 0 then [] else
          [⟨port, members.sendBuffSize, members.recvBuffSize⟩] } = t
  | .http => s.state = true ∧ ∃ thread, e.conf.thread = some thread ∧ { s with
      loaded := Function.update s.loaded .http (some ["get", "post"])
      threads := some thread } = t
  | .master => Module.harbor ∈ modules ∧ addNodeListener .master s = t
  | .rpc => s.state = true ∧
      { s with loaded := Function.update s.loaded .harbor (some rpcFunctions) } = t
  | .scriptEngine => s.state = true ∧ { s with
      loaded := Function.update s.loaded .harbor ((s.loaded .harbor).map (· ++ callbacks))
      entry := some ((s.loaded .harbor).isSome && e.main fun m => (s.loaded m).isSome) } = t
  | .redis | .starter => s = t

theorem launched_iff :
    ignoring (e.lifecycle.launched modules) m s = some t ↔ e.Launches modules s t m := by
  cases m with
  | cluster =>
    simp only [ignoring, Env.lifecycle, Cluster.launched, Env.Launches]
    rcases s.masterAddress with _ | ⟨ip, port⟩ <;> cases s.harbor <;> simp
  | harbor =>
    simp only [ignoring, Env.lifecycle, Harbor.launched, Env.Launches]
    cases s.harbor with
    | none => simp
    | some members =>
      by_cases hp : (if Module.master ∈ modules then s.masterPort else members.self.port) = 0 <;>
        simp [hp]
  | http =>
    simp only [ignoring, Env.lifecycle, Http.launched, createModuleWith_eq, Env.Launches]
    cases s.state <;> cases e.conf.thread <;> simp
  | scriptEngine =>
    simp only [ignoring, Env.lifecycle, ScriptEngine.launched, Env.Launches]
    cases hl : s.loaded .harbor with
    | none =>
      have hsame : Function.update s.loaded .harbor none = s.loaded := by
        rw [← hl, Function.update_eq_self]
      simp [hsame]
    | some funcs => simp
  | master | redis | rpc | starter =>
    simp [ignoring, Env.lifecycle, Env.Launches, Master.launched, Rpc.launched, createModuleWith_eq]

/-! ## What the modules touch -/

/-- The parts of a process. -/
inductive Part
  | buffers | self | handlers | listeners | listening | masterAddress | dialled | masterPort
  | state | harborModule | httpModule | entry | threads
  deriving DecidableEq

abbrev Part.Value : Part → Type
  | .buffers => Option (Int32 × Int32 × Int32)
  | .self => Option NodeReport
  | .handlers => Handlers Handler
  | .listeners => List Module
  | .listening => List Listening
  | .masterAddress => Option (List Char × Int32)
  | .dialled => List Dialling
  | .masterPort => Int32
  | .state => Bool
  | .harborModule | .httpModule => Option (List String)
  | .entry => Option Bool
  | .threads => Option Int32

def Startup.part : (p : Part) → Startup → p.Value
  | .buffers, s => s.harbor.map fun m => (m.sendBuffSize, m.recvBuffSize, m.reconnectTick)
  | .self, s => s.harbor.map HarborMembers.self
  | .handlers, s => s.handlers
  | .listeners, s => s.listeners
  | .listening, s => s.listening
  | .masterAddress, s => s.masterAddress
  | .dialled, s => s.dialled
  | .masterPort, s => s.masterPort
  | .state, s => s.state
  | .harborModule, s => s.loaded .harbor
  | .httpModule, s => s.loaded .http
  | .entry, s => s.entry
  | .threads, s => s.threads

theorem Startup.ext_part (s t : Startup) (h : ∀ p, part p s = part p t) : s = t := by
  have hharbor : s.harbor = t.harbor := by
    have hbuffers := h .buffers
    have hself := h .self
    simp only [part] at hbuffers hself
    cases hs : s.harbor <;> cases ht : t.harbor <;> simp only [hs, ht, Option.map_some,
      Option.map_none, Option.some.injEq, Prod.mk.injEq, reduceCtorEq] at hbuffers hself
    · rfl
    · exact congrArg some (HarborMembers.ext hbuffers.1 hbuffers.2.1 hbuffers.2.2 hself)
  have hloaded : s.loaded = t.loaded := by
    funext m
    cases m
    · exact h .harborModule
    · exact h .httpModule
  exact Startup.ext hharbor (h .handlers) (h .listeners) (h .listening) (h .masterAddress)
    (h .dialled) (h .masterPort) (h .state) hloaded (h .entry) (h .threads)

/-- What the module reads as it initialises. -/
def Module.initReads : Module → List Part
  | .rpc => [.handlers, .listeners]
  | _ => []

def Module.initWrites : Module → List Part
  | .cluster => [.masterAddress]
  | .harbor => [.buffers, .self]
  | .master => [.masterPort]
  | .rpc => [.handlers, .listeners]
  | .scriptEngine => [.state, .harborModule, .httpModule]
  | .http | .redis | .starter => []

def Module.launchReads : Module → List Part
  | .cluster => [.masterAddress, .buffers, .dialled, .handlers]
  | .harbor => [.buffers, .self, .masterPort, .listening]
  | .http => [.state]
  | .master => [.listeners]
  | .rpc => [.state]
  | .scriptEngine => [.state, .harborModule, .httpModule]
  | .redis | .starter => []

def Module.launchWrites : Module → List Part
  | .cluster => [.dialled, .handlers]
  | .harbor => [.self, .listening]
  | .http => [.httpModule, .threads]
  | .master => [.listeners]
  | .rpc => [.harborModule]
  | .scriptEngine => [.harborModule, .entry]
  | .redis | .starter => []

theorem init_footprint (m : Module) :
    Footprint Startup.part (ignoring (e.lifecycle.init modules) m) m.initReads m.initWrites := by
  constructor
  · intro s t h p hp
    have h := init_iff.mp h
    cases m with
    | cluster | master | scriptEngine =>
      obtain rfl := h
      cases p <;> first | rfl | exact absurd (by decide) hp
    | harbor =>
      obtain ⟨members, _, rfl⟩ := h
      cases p <;> first | rfl | exact absurd (by decide) hp
    | http | rpc =>
      obtain ⟨_, rfl⟩ := h
      cases p <;> first | rfl | exact absurd (by decide) hp
    | redis | starter =>
      obtain rfl := h
      rfl
  · intro s t s' h hr
    simp only [init_iff] at h ⊢
    cases m with
    | cluster | master | scriptEngine =>
      obtain rfl := h
      exact ⟨_, rfl, by simp [Module.initWrites, Startup.part]⟩
    | harbor =>
      obtain ⟨members, hm, rfl⟩ := h
      exact ⟨_, ⟨members, hm, rfl⟩, by simp [Module.initWrites, Startup.part]⟩
    | http =>
      obtain ⟨hm, rfl⟩ := h
      exact ⟨s', ⟨hm, rfl⟩, by simp [Module.initWrites]⟩
    | rpc =>
      obtain ⟨hm, rfl⟩ := h
      simp only [Module.initReads, List.forall_mem_cons, Startup.part] at hr
      refine ⟨_, ⟨hm, rfl⟩, ?_⟩
      simp [Module.initWrites, Startup.part, addNodeListener, regProtocolHandler, hr.1, hr.2.1]
    | redis | starter =>
      exact ⟨s', rfl, by simp [Module.initWrites]⟩

theorem launched_footprint (m : Module) :
    Footprint Startup.part (ignoring (e.lifecycle.launched modules) m) m.launchReads
      m.launchWrites := by
  constructor
  · intro s t h p hp
    have h := launched_iff.mp h
    cases m with
    | cluster =>
      obtain ⟨ip, port, members, _, _, _, rfl⟩ := h
      cases p <;> first | rfl | exact absurd (by decide) hp
    | harbor =>
      obtain ⟨members, port, hm, _, _, rfl⟩ := h
      cases p <;> first | rfl | exact absurd (by decide) hp | simp [Startup.part, hm]
    | http =>
      obtain ⟨_, thread, _, rfl⟩ := h
      cases p <;> first | rfl | exact absurd (by decide) hp
    | master | rpc | scriptEngine =>
      obtain ⟨_, rfl⟩ := h
      cases p <;> first | rfl | exact absurd (by decide) hp
    | redis | starter =>
      obtain rfl := h
      rfl
  · intro s t s' h hr
    simp only [launched_iff] at h ⊢
    cases m with
    | cluster =>
      obtain ⟨ip, port, members, ha, hm, hc, rfl⟩ := h
      simp only [Module.launchReads, List.forall_mem_cons, Startup.part, hm, Option.map_some,
        Option.map_eq_some_iff, Prod.mk.injEq] at hr
      obtain ⟨haddress, ⟨members', hm', hsend, hrecv, _⟩, hdialled, hhandlers, _⟩ := hr
      refine ⟨_, ⟨ip, port, members', haddress.trans ha, hm', hc, rfl⟩, ?_⟩
      simp [Module.launchWrites, Startup.part, regProtocolHandler, hsend, hrecv, hdialled,
        hhandlers]
    | harbor =>
      obtain ⟨members, port, hm, hp, hl, rfl⟩ := h
      simp only [Module.launchReads, List.forall_mem_cons, Startup.part, hm, Option.map_some,
        Option.map_eq_some_iff, Prod.mk.injEq] at hr
      obtain ⟨⟨members', hm', hsend, hrecv, _⟩, ⟨same, hsame, hself⟩, hmaster, hlistening, _⟩ := hr
      obtain rfl := Option.some.inj (hm'.symm.trans hsame)
      refine ⟨_, ⟨members', port, hm', by rw [hp, hmaster, hself], hl, rfl⟩, ?_⟩
      simp [Module.launchWrites, Startup.part, hsend, hrecv, hself, hlistening]
    | http =>
      obtain ⟨hs, thread, ht, rfl⟩ := h
      simp only [Module.launchReads, List.forall_mem_cons, Startup.part] at hr
      exact ⟨_, ⟨hr.1.trans hs, thread, ht, rfl⟩, by simp [Module.launchWrites, Startup.part]⟩
    | master =>
      obtain ⟨hm, rfl⟩ := h
      simp only [Module.launchReads, List.forall_mem_cons, Startup.part] at hr
      exact ⟨_, ⟨hm, rfl⟩, by simp [Module.launchWrites, Startup.part, addNodeListener, hr.1]⟩
    | rpc =>
      obtain ⟨hs, rfl⟩ := h
      simp only [Module.launchReads, List.forall_mem_cons, Startup.part] at hr
      exact ⟨_, ⟨hr.1.trans hs, rfl⟩, by simp [Module.launchWrites, Startup.part]⟩
    | scriptEngine => 
      obtain ⟨hs, rfl⟩ := h
      simp only [Module.launchReads, List.forall_mem_cons, Startup.part] at hr
      have hloaded : s'.loaded = s.loaded := by
        funext m
        cases m
        · exact hr.2.1
        · exact hr.2.2.1
      exact ⟨_, ⟨hr.1.trans hs, rfl⟩, by simp [Module.launchWrites, Startup.part, hloaded]⟩
    | redis | starter =>
      exact ⟨s', rfl, by simp [Module.launchWrites]⟩

/-! ## Which modules commute -/

/-- The modules initialise what is their own. -/
theorem apart_init {a b : Module} (h : a ≠ b) :
    Apart a.initWrites (b.initReads ++ b.initWrites) := by
  cases a <;> cases b <;> first | exact absurd rfl h | decide

/-- The module makes a module for the scripts. -/
def Module.scripts : Module → Bool
  | .rpc | .http => true
  | _ => false

/-- Only the scripts need something that others launch. -/
theorem apart_launch {a b : Module} (h : a ≠ b) (ha : a = .scriptEngine → b.scripts = false)
    (hb : b = .scriptEngine → a.scripts = false) :
    Apart a.launchWrites (b.launchReads ++ b.launchWrites) := by
  cases a <;> cases b <;>
    first | exact absurd rfl h | decide | cases ha rfl | cases hb rfl

theorem init_commutes {a b : Module} (h : a ≠ b) :
    Commutes (ignoring (e.lifecycle.init modules)) a b :=
  (init_footprint a).commutes (init_footprint b) Startup.ext_part (apart_init h) (apart_init h.symm)

theorem launched_commutes {a b : Module} (h : a ≠ b) (ha : a = .scriptEngine → b.scripts = false)
    (hb : b = .scriptEngine → a.scripts = false) :
    Commutes (ignoring (e.lifecycle.launched modules)) a b :=
  (launched_footprint a).commutes (launched_footprint b) Startup.ext_part (apart_launch h ha hb)
    (apart_launch h.symm hb ha)

/-- Two orders of the modules, with Rpc and Http on the same side of ScriptEngine, come to the
same. -/
theorem start_in_order {order order' : List Module} (hp : order.Perm order') (hn : order.Nodup)
    (hrpc : Before order .rpc .scriptEngine ↔ Before order' .rpc .scriptEngine)
    (hhttp : Before order .http .scriptEngine ↔ Before order' .http .scriptEngine) (s : Startup) :
    e.lifecycle.start modules order s = e.lifecycle.start modules order' s := by
  have hscripts : ∀ m : Module, m.scripts = true →
      (Before order m .scriptEngine ↔ Before order' m .scriptEngine) := by
    intro m hm
    cases m <;> first | exact hrpc | exact hhttp | cases hm
  refine e.lifecycle.start_perm hp hn (fun a _ b _ hab => .inl (init_commutes hab)) ?_ s
  intro a ha b hb hab
  by_cases hs : a = .scriptEngine ∧ b.scripts = true
  · obtain ⟨rfl, hs⟩ := hs
    right
    rw [before_swap hn hb ha hab.symm, before_swap (hp.nodup_iff.mp hn) (hp.mem_iff.mp hb)
      (hp.mem_iff.mp ha) hab.symm, hscripts b hs]
  · by_cases hs' : b = .scriptEngine ∧ a.scripts = true
    · obtain ⟨rfl, hs'⟩ := hs'
      exact .inr (hscripts a hs')
    · refine .inl (launched_commutes hab (fun h => ?_) fun h => ?_)
      · exact Bool.eq_false_iff.mpr fun h' => hs ⟨h, h'⟩
      · exact Bool.eq_false_iff.mpr fun h' => hs' ⟨h, h'⟩

/-- The node gate 1 of the configuration that comes with the source, with a port of its own. -/
def gateEnv : Env where
  conf := ⟨['1', '2', '7', '.', '0', '.', '0', '.', '1'], 17700, 10240, 10240, 30,
    [⟨1, ['m', 'a', 's', 't', 'e', 'r'], some ['f', 'a', 'l', 's', 'e']⟩,
      ⟨3, ['g', 'a', 't', 'e'], some ['f', 'a', 'l', 's', 'e']⟩], none⟩
  args := lastValue [(['n', 'a', 'm', 'e'], ['g', 'a', 't', 'e']), (['n', 'o', 'd', 'e'], ['1']),
    (['p', 'o', 'r', 't'], ['7', '0', '0', '1'])]
  listens _ := true
  connects _ _ := true
  main _ := true

theorem start_in_order_gate :
    gateEnv.lifecycle.start [.harbor, .cluster, .scriptEngine, .rpc]
        [.cluster, .rpc, .scriptEngine, .harbor] .init =
      gateEnv.lifecycle.start [.harbor, .cluster, .scriptEngine, .rpc]
        [.harbor, .rpc, .scriptEngine, .cluster] .init :=
  start_in_order (by decide) (by decide) (by decide) (by decide) .init

end HyperNet.Kernel
