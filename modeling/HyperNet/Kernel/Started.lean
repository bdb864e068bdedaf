import HyperNet.Kernel.Startup

/-! # A process that has started

What there is after the start, in terms of the configuration, the command line and the modules: the
same for every order of them, but for what the scripts have found. -/
namespace HyperNet.Kernel
open HyperNet.Core.Commuting HyperNet.Logic

variable {e : Env} {modules order : List Module} {m : Module} {s t u : Startup}

/-- The module that registers the handler. -/
def handlerModule : Handler → Module
  | .newNodeComming => .cluster
  | .onCall | .onCallNoRet | .onRespone => .rpc

/-- What Harbor finds, where it is there. -/
def Env.members (e : Env) (modules : List Module) : Option HarborMembers :=
  if Module.harbor ∈ modules then Harbor.members e else none

/-- The port that Harbor listens on. -/
def Env.port (e : Env) (modules : List Module) (members : HarborMembers) : Int32 :=
  if Module.master ∈ modules then e.conf.masterPort else members.self.port

/-- The modules find each other and what they need. -/
structure Env.Starts (e : Env) (modules : List Module) : Prop where
  harbor : Module.harbor ∈ modules → ∃ members, Harbor.members e = some members ∧
    (e.port modules members = 0 ∨ e.listens (e.port modules members) = true)
  cluster : Module.cluster ∈ modules → Module.harbor ∈ modules ∧
    e.connects e.conf.masterIp e.conf.masterPort = true
  master : Module.master ∈ modules → Module.harbor ∈ modules
  rpc : Module.rpc ∈ modules → Module.scriptEngine ∈ modules ∧ Module.harbor ∈ modules
  http : Module.http ∈ modules → Module.scriptEngine ∈ modules ∧
    ∃ thread, e.conf.thread = some thread

/-- The modules that a script finds. -/
def found (harbor http : Bool) : ScriptModule → Bool
  | .harbor => harbor
  | .http => http

/-- The process after the start. -/
def Env.started (e : Env) (order : List Module) : Startup where
  harbor := (e.members order).map fun members =>
    { members with self := { members.self with port := e.port order members } }
  handlers nodeType messageId :=
    (registered nodeType messageId).filter fun handler => handlerModule handler ∈ order
  listeners := [Module.rpc, .master].filter (· ∈ order)
  listening := (e.members order).elim [] fun members =>
    if e.port order members = 0 then [] else
      [⟨e.port order members, members.sendBuffSize, members.recvBuffSize⟩]
  masterAddress :=
    if Module.cluster ∈ order then some (e.conf.masterIp, e.conf.masterPort) else none
  dialled := if Module.cluster ∈ order then (e.members order).elim [] fun members =>
    [⟨e.conf.masterIp, e.conf.masterPort, members.sendBuffSize, members.recvBuffSize⟩] else []
  masterPort := if Module.master ∈ order then e.conf.masterPort else 0
  state := Module.scriptEngine ∈ order
  loaded
    | .harbor => if Module.rpc ∈ order then
        some (rpcFunctions ++ if Before order .rpc .scriptEngine then callbacks else []) else none
    | .http => if Module.http ∈ order then some ["get", "post"] else none
  entry := if Module.scriptEngine ∈ order then
    some (Before order .rpc .scriptEngine &&
      e.main (found (Before order .rpc .scriptEngine) (Before order .http .scriptEngine))) else none
  threads := if Module.http ∈ order then e.conf.thread else none

/-! ## After the modules have been initialised -/

/-- The process when all modules have been initialised. -/
def Env.initialised (e : Env) (order : List Module) : Startup where
  harbor := e.members order
  handlers nodeType messageId := (registered nodeType messageId).filter fun handler =>
    handlerModule handler = .rpc ∧ Module.rpc ∈ order
  listeners := if Module.rpc ∈ order then [.rpc] else []
  listening := []
  masterAddress :=
    if Module.cluster ∈ order then some (e.conf.masterIp, e.conf.masterPort) else none
  dialled := []
  masterPort := if Module.master ∈ order then e.conf.masterPort else 0
  state := Module.scriptEngine ∈ order
  loaded := fun _ => none
  entry := none
  threads := none

/-- A module initialises what it would alone. -/
theorem initialised_by (hn : order.Nodup) (hm : m ∈ order)
    (hu : runAll (ignoring (e.lifecycle.init modules)) order s = some u) :
    ∃ v, e.Initialises modules s v m ∧
      ∀ p, m.initWrites.contains p = true → u.part p = v.part p := by
  obtain ⟨v, hv, hp⟩ := runAll_undisturbed (fun a _ => init_footprint a) hn hm
    (fun b _ hb => apart_init hb) hu
  exact ⟨v, init_iff.mp hv, fun p hw => hp p (List.contains_iff_mem.mp hw)⟩

/-- A part stays where no module initialises it. -/
theorem initialised_else {p : Part} (hp : ∀ a ∈ order, a.initWrites.contains p = false)
    (hu : runAll (ignoring (e.lifecycle.init modules)) order s = some u) : u.part p = s.part p :=
  runAll_unwritten (fun a ha _ _ hst => (init_footprint a).keeps hst p fun hw =>
    Bool.false_ne_true ((hp a ha).symm.trans (List.contains_iff_mem.mpr hw))) hu

/-- The handlers of Rpc are the registered ones. -/
theorem handlers_rpc (nodeType messageId : Int32) (h : s.handlers = fun _ _ => none) :
    (regProtocolHandler ANY_NODE 4 .onRespone (regProtocolHandler ANY_NODE 2 .onCallNoRet
      (regProtocolHandler ANY_NODE 3 .onCall s))).handlers nodeType messageId =
    (registered nodeType messageId).filter fun handler => handlerModule handler = .rpc := by
  have hmaster : ANY_NODE ≠ 1 := by decide
  simp only [regProtocolHandler, registered, Function.update_apply, h]
  split_ifs <;> simp_all [Option.filter, handlerModule]

theorem init_eq (hn : order.Nodup)
    (hu : runAll (ignoring (e.lifecycle.init modules)) order .init = some u) :
    u = e.initialised order := by
  refine Startup.ext_part _ _ fun p => ?_
  cases p with
  | buffers | self =>
    by_cases hm : Module.harbor ∈ order
    · obtain ⟨v, ⟨members, hmem, rfl⟩, hp⟩ := initialised_by hn hm hu
      rw [hp _ rfl]
      simp [Startup.part, Env.initialised, Env.members, hm, hmem]
    · rw [initialised_else (fun a ha => by cases a <;> first | rfl | exact absurd ha hm) hu]
      simp [Startup.part, Env.initialised, Env.members, hm, Startup.init]
  | handlers =>
    by_cases hm : Module.rpc ∈ order
    · obtain ⟨v, ⟨_, rfl⟩, hp⟩ := initialised_by hn hm hu
      rw [hp _ rfl]
      funext nodeType messageId
      refine (handlers_rpc nodeType messageId rfl).trans ?_
      simp [Startup.part, Env.initialised, hm]
    · rw [initialised_else (fun a ha => by cases a <;> first | rfl | exact absurd ha hm) hu]
      funext nodeType messageId
      simp [Startup.part, Env.initialised, hm, Startup.init]
  | listeners =>
    by_cases hm : Module.rpc ∈ order
    · obtain ⟨v, ⟨_, rfl⟩, hp⟩ := initialised_by hn hm hu
      rw [hp _ rfl]
      simp [Startup.part, Env.initialised, hm, addNodeListener, regProtocolHandler, Startup.init]
    · rw [initialised_else (fun a ha => by cases a <;> first | rfl | exact absurd ha hm) hu]
      simp [Startup.part, Env.initialised, hm, Startup.init]
  | masterAddress =>
    by_cases hm : Module.cluster ∈ order
    · obtain ⟨v, rfl, hp⟩ := initialised_by hn hm hu
      rw [hp _ rfl]
      simp [Startup.part, Env.initialised, hm]
    · rw [initialised_else (fun a ha => by cases a <;> first | rfl | exact absurd ha hm) hu]
      simp [Startup.part, Env.initialised, hm, Startup.init]
  | masterPort =>
    by_cases hm : Module.master ∈ order
    · obtain ⟨v, rfl, hp⟩ := initialised_by hn hm hu
      rw [hp _ rfl]
      simp [Startup.part, Env.initialised, hm]
    · rw [initialised_else (fun a ha => by cases a <;> first | rfl | exact absurd ha hm) hu]
      simp [Startup.part, Env.initialised, hm, Startup.init]
  | state | harborModule | httpModule =>
    by_cases hm : Module.scriptEngine ∈ order
    · obtain ⟨v, rfl, hp⟩ := initialised_by hn hm hu
      rw [hp _ rfl]
      simp [Startup.part, Env.initialised, hm]
    · rw [initialised_else (fun a ha => by cases a <;> first | rfl | exact absurd ha hm) hu]
      simp [Startup.part, Env.initialised, hm, Startup.init]
  | listening | dialled | entry | threads =>
    exact (initialised_else (fun a _ => by cases a <;> rfl) hu).trans rfl

/-! ## After they have been launched -/

/-- A module launches what it would alone, where no other writes what it reads. -/
theorem launched_by (hn : order.Nodup) (hm : m ∈ order)
    (h : ∀ a ∈ order, a ≠ m → Apart a.launchWrites (m.launchReads ++ m.launchWrites))
    (ht : runAll (ignoring (e.lifecycle.launched modules)) order s = some t) :
    ∃ v, e.Launches modules s v m ∧
      ∀ p, m.launchWrites.contains p = true → t.part p = v.part p := by
  obtain ⟨v, hv, hp⟩ := runAll_undisturbed (fun a _ => launched_footprint a) hn hm h ht
  exact ⟨v, launched_iff.mp hv, fun p hw => hp p (List.contains_iff_mem.mp hw)⟩

/-- A part stays where none of its modules is there. -/
theorem launched_else {p : Part} (hp : ∀ a ∈ order, a.launchWrites.contains p = false)
    (ht : runAll (ignoring (e.lifecycle.launched modules)) order s = some t) :
    t.part p = s.part p :=
  runAll_unwritten (fun a ha _ _ hst => (launched_footprint a).keeps hst p fun hw =>
    Bool.false_ne_true ((hp a ha).symm.trans (List.contains_iff_mem.mpr hw))) ht

/-- The module needs no more than what has been initialised. -/
def Module.alone : Module → Bool
  | .rpc | .scriptEngine => false
  | _ => true

theorem launched_alone (hn : order.Nodup) (hm : m ∈ order) (h : m.alone = true)
    (ht : runAll (ignoring (e.lifecycle.launched modules)) order s = some t) :
    ∃ v, e.Launches modules s v m ∧
      ∀ p, m.launchWrites.contains p = true → t.part p = v.part p := by
  refine launched_by hn hm (fun a _ hne => ?_) ht
  cases a <;> cases m <;> first | exact absurd rfl hne | decide | cases h

/-- Rpc needs no more where ScriptEngine is not there. -/
theorem apart_rpc {a : Module} (hs : a ≠ .scriptEngine) (h : a ≠ .rpc) :
    Apart a.launchWrites (Module.launchReads .rpc ++ Module.launchWrites .rpc) := by
  cases a <;> first | exact absurd rfl h | decide | cases hs rfl

/-- The handlers of Cluster are the registered ones. -/
theorem handlers_cluster {p : Prop} [Decidable p] (nodeType messageId : Int32)
    (h : s.handlers nodeType messageId =
      (registered nodeType messageId).filter fun handler => handlerModule handler = .rpc ∧ p) :
    (regProtocolHandler 1 1 .newNodeComming s).handlers nodeType messageId =
      (registered nodeType messageId).filter fun handler =>
        handlerModule handler = .cluster ∨ handlerModule handler = .rpc ∧ p := by
  simp only [regProtocolHandler, registered, Function.update_apply] at h ⊢
  split_ifs at h ⊢ <;> simp_all [Option.filter, handlerModule]

/-- What Rpc has given the scripts when it is there, and ScriptEngine is not. -/
theorem rpc_module (hn : order.Nodup) (hs : Module.scriptEngine ∉ order)
    (ht : runAll (ignoring (e.lifecycle.launched modules)) order s = some t) :
    t.loaded .harbor = if Module.rpc ∈ order then some rpcFunctions else s.loaded .harbor := by
  split
  · next hm =>
    obtain ⟨v, ⟨_, rfl⟩, hp⟩ := launched_by hn hm (fun a ha hne =>
      apart_rpc (fun h => hs (h ▸ ha)) hne) ht
    refine (hp .harborModule rfl).trans ?_
    simp [Startup.part]
  · next hm =>
    exact launched_else (p := .harborModule) (fun a ha => by
      cases a <;> first | rfl | exact absurd ha hs | exact absurd ha hm) ht

theorem http_module (hn : order.Nodup)
    (ht : runAll (ignoring (e.lifecycle.launched modules)) order s = some t) :
    t.loaded .http = if Module.http ∈ order then some ["get", "post"] else s.loaded .http := by
  split
  · next hm =>
    obtain ⟨v, ⟨_, _, _, rfl⟩, hp⟩ := launched_alone hn hm rfl ht
    refine (hp .httpModule rfl).trans ?_
    simp [Startup.part]
  · next hm =>
    exact launched_else (p := .httpModule) (fun a ha => by
      cases a <;> first | rfl | exact absurd ha hm) ht

/-- ScriptEngine finds the modules that come before it; Rpc makes its module anew after it. -/
theorem scripts_launched {pre post : List Module} (hn : (pre ++ .scriptEngine :: post).Nodup)
    (hs : s.loaded = fun _ => none)
    (ht : runAll (ignoring (e.lifecycle.launched modules)) (pre ++ .scriptEngine :: post) s =
      some t) :
    t.entry = some (Module.rpc ∈ pre && e.main (found (Module.rpc ∈ pre) (Module.http ∈ pre))) ∧
    t.loaded .harbor = if Module.rpc ∈ post then some rpcFunctions
      else if Module.rpc ∈ pre then some (rpcFunctions ++ callbacks) else none := by
  have hcons := List.nodup_cons.mp (List.nodup_middle.mp hn)
  obtain ⟨hpre, hpost⟩ := not_or.mp (mt List.mem_append.mpr hcons.1)
  have hnpre := hcons.2.of_append_left
  have hnpost := hcons.2.of_append_right
  rw [runAll_append] at ht
  obtain ⟨u, hu, ht⟩ := Option.bind_eq_some_iff.mp ht
  obtain ⟨v, hv, ht⟩ := Option.bind_eq_some_iff.mp ht
  obtain ⟨_, rfl⟩ : e.Launches modules u v .scriptEngine := launched_iff.mp hv
  have hharbor := rpc_module hnpre hpre hu
  have hhttp := http_module hnpre hu
  rw [hs] at hharbor hhttp
  constructor
  · have hentry : t.entry = _ := launched_else (p := .entry) (fun a ha => by
      cases a <;> first | rfl | exact absurd ha hpost) ht
    rw [hentry]
    have hfound : (fun m => (u.loaded m).isSome) =
        found (Module.rpc ∈ pre) (Module.http ∈ pre) := by
      funext m
      cases m
      · rw [hharbor]
        split <;> simp_all [found]
      · rw [hhttp]
        split <;> simp_all [found]
    simp only [Startup.part, hfound]
    congr 2
    exact congrFun hfound .harbor
  · rw [rpc_module hnpost hpost ht]
    simp only [Function.update_self, hharbor]
    split
    · rfl
    · split <;> rfl

theorem scripts_started (hn : order.Nodup) (hm : Module.scriptEngine ∈ order)
    (ht : runAll (ignoring (e.lifecycle.launched modules)) order (e.initialised order) = some t) :
    t.entry = (e.started order).entry ∧ t.loaded .harbor = (e.started order).loaded .harbor := by
  obtain ⟨pre, post, rfl⟩ := List.append_of_mem hm
  obtain ⟨hnot, hdisjoint⟩ := List.nodup_cons.mp (List.nodup_middle.mp hn)
  have hpost : Module.scriptEngine ∉ post := mt (List.mem_append_right pre) hnot
  obtain ⟨hentry, hharbor⟩ := scripts_launched hn rfl ht
  constructor
  · rw [hentry]
    simp [Env.started, before_iff_left hpost]
  · rw [hharbor]
    by_cases hl : Module.rpc ∈ pre
    · have hr : Module.rpc ∉ post := fun hr => (List.nodup_append.mp hdisjoint).2.2 _ hl _ hr rfl
      simp [Env.started, hl, hr, before_iff_left hpost]
    · simp [Env.started, hl, before_iff_left hpost]

/-- Harbor listens on its own port, or the master's. -/
theorem harbor_launched (hmodules : ∀ a, a ∈ modules ↔ a ∈ order) (hm : Module.harbor ∈ order)
    (h : e.Launches modules (e.initialised order) t .harbor) :
    ∃ members, Harbor.members e = some members ∧
      (e.port order members = 0 ∨ e.listens (e.port order members) = true) ∧
      t.harbor = some { members with
        self := { members.self with port := e.port order members } } ∧
      t.listening = if e.port order members = 0 then [] else
        [⟨e.port order members, members.sendBuffSize, members.recvBuffSize⟩] := by
  obtain ⟨members, port, hmem, hport, hlisten, rfl⟩ := h
  have hmem : Harbor.members e = some members := by
    rw [← hmem]
    simp [Env.initialised, Env.members, hm]
  have hport : port = e.port order members := by
    rw [hport, Env.port]
    simp only [hmodules, Env.initialised]
    split <;> rfl
  subst hport
  exact ⟨members, hmem, hlisten, rfl, rfl⟩

/-- What the modules need is there where they have been initialised and launched. -/
theorem starts_of_runAll (hn : order.Nodup) (hmodules : ∀ a, a ∈ modules ↔ a ∈ order)
    (hu : runAll (ignoring (e.lifecycle.init modules)) order .init = some u)
    (ht : runAll (ignoring (e.lifecycle.launched modules)) order u = some t) : e.Starts order where
  harbor hm := by
    obtain ⟨_, hv, _⟩ := launched_alone hn hm rfl ht
    rw [init_eq hn hu] at hv
    obtain ⟨members, hmem, hlisten, _⟩ := harbor_launched hmodules hm hv
    exact ⟨members, hmem, hlisten⟩
  cluster hm := by
    obtain ⟨_, ⟨ip, port, _, haddress, _, hc, _⟩, _⟩ := launched_alone hn hm rfl ht
    rw [init_eq hn hu] at haddress
    simp only [Env.initialised, hm, if_true, Option.some.injEq, Prod.mk.injEq] at haddress
    obtain ⟨rfl, rfl⟩ := haddress
    exact ⟨(hmodules _).mp hc.1, hc.2⟩
  master hm := by
    obtain ⟨_, ⟨hh, _⟩, _⟩ := launched_alone hn hm rfl ht
    exact (hmodules _).mp hh
  rpc hm := by
    obtain ⟨_, ⟨hh, _⟩, _⟩ := initialised_by hn hm hu
    exact ⟨(hmodules _).mp hh.1, (hmodules _).mp hh.2⟩
  http hm := by
    obtain ⟨_, ⟨hh, _⟩, _⟩ := initialised_by hn hm hu
    obtain ⟨_, ⟨_, thread, hthread, _⟩, _⟩ := launched_alone hn hm rfl ht
    exact ⟨(hmodules _).mp hh, thread, hthread⟩

/-- They are launched to what the process is then. -/
theorem launch_eq (hn : order.Nodup) (hmodules : ∀ a, a ∈ modules ↔ a ∈ order)
    (hstarts : e.Starts order)
    (ht : runAll (ignoring (e.lifecycle.launched modules)) order (e.initialised order) = some t) :
    t = e.started order := by
  refine Startup.ext_part _ _ fun p => ?_
  cases p with
  | buffers | masterAddress | masterPort | state =>
    refine (launched_else (fun a _ => by cases a <;> rfl) ht).trans ?_
    simp [Startup.part, Env.initialised, Env.started, Option.map_map, Function.comp_def]
  | self | listening =>
    by_cases hm : Module.harbor ∈ order
    · obtain ⟨v, hv, hp⟩ := launched_alone hn hm rfl ht
      obtain ⟨members, hmem, _, hharbor, hlistening⟩ := harbor_launched hmodules hm hv
      rw [hp _ rfl]
      simp [Startup.part, Env.started, Env.members, hm, hmem, hharbor, hlistening]
    · refine (launched_else (fun a ha => by
        cases a <;> first | rfl | exact absurd ha hm) ht).trans ?_
      simp [Startup.part, Env.initialised, Env.started, Env.members, hm]
  | handlers =>
    funext nodeType messageId
    by_cases hm : Module.cluster ∈ order
    · obtain ⟨v, ⟨ip, port, members, _, _, _, rfl⟩, hp⟩ := launched_alone hn hm rfl ht
      rw [hp _ rfl]
      refine (handlers_cluster (p := Module.rpc ∈ order) nodeType messageId rfl).trans ?_
      refine congrArg (Option.filter · _) (funext fun handler => ?_)
      exact decide_eq_decide.mpr (by cases handler <;> simp [handlerModule, hm])
    · rw [launched_else (p := .handlers) (fun a ha => by
        cases a <;> first | rfl | exact absurd ha hm) ht]
      refine congrArg (Option.filter · _) (funext fun handler => ?_)
      exact decide_eq_decide.mpr (by cases handler <;> simp [handlerModule, hm])
  | dialled =>
    by_cases hm : Module.cluster ∈ order
    · obtain ⟨v, ⟨ip, port, members, haddress, hmem, _, rfl⟩, hp⟩ := launched_alone hn hm rfl ht
      rw [hp _ rfl]
      simp only [Env.initialised, hm, if_true, Option.some.injEq, Prod.mk.injEq] at haddress hmem
      obtain ⟨rfl, rfl⟩ := haddress
      simp [Startup.part, regProtocolHandler, Env.initialised, Env.started, hm, hmem]
    · refine (launched_else (fun a ha => by
        cases a <;> first | rfl | exact absurd ha hm) ht).trans ?_
      simp [Startup.part, Env.initialised, Env.started, hm]
  | listeners =>
    by_cases hm : Module.master ∈ order
    · obtain ⟨v, ⟨_, rfl⟩, hp⟩ := launched_alone hn hm rfl ht
      rw [hp _ rfl]
      by_cases hr : Module.rpc ∈ order <;>
        simp [Startup.part, addNodeListener, Env.initialised, Env.started, hm, hr]
    · refine (launched_else (fun a ha => by
        cases a <;> first | rfl | exact absurd ha hm) ht).trans ?_
      by_cases hr : Module.rpc ∈ order <;>
        simp [Startup.part, Env.initialised, Env.started, hm, hr]
  | harborModule =>
    by_cases hm : Module.scriptEngine ∈ order
    · exact (scripts_started hn hm ht).2
    · rw [launched_else (p := .harborModule) (fun a ha => by
        cases a <;> first | rfl | exact absurd ha hm | exact absurd (hstarts.rpc ha).1 hm) ht]
      have hr : Module.rpc ∉ order := fun hr => hm (hstarts.rpc hr).1
      simp [Startup.part, Env.initialised, Env.started, hr]
  | entry =>
    by_cases hm : Module.scriptEngine ∈ order
    · exact (scripts_started hn hm ht).1
    · refine (launched_else (fun a ha => by
        cases a <;> first | rfl | exact absurd ha hm) ht).trans ?_
      simp [Startup.part, Env.initialised, Env.started, hm]
  | httpModule => exact (http_module hn ht).trans rfl
  | threads =>
    by_cases hm : Module.http ∈ order
    · obtain ⟨v, ⟨_, thread, hthread, rfl⟩, hp⟩ := launched_alone hn hm rfl ht
      rw [hp _ rfl]
      simp [Startup.part, Env.started, hm, hthread]
    · refine (launched_else (fun a ha => by
        cases a <;> first | rfl | exact absurd ha hm) ht).trans ?_
      simp [Startup.part, Env.initialised, Env.started, hm]

/-- What the modules need as they are launched, whichever have been already. -/
structure Env.Ready (e : Env) (order : List Module) (s : Startup) : Prop where
  state : Module.scriptEngine ∈ order → s.state = true
  address : Module.cluster ∈ order →
    s.masterAddress = some (e.conf.masterIp, e.conf.masterPort)
  harbor : Module.harbor ∈ order → ∃ members port, s.harbor = some members ∧
    port = (if Module.master ∈ order then s.masterPort else members.self.port) ∧
    (port = 0 ∨ e.listens port = true)

theorem ready_initialised (h : e.Starts order) : e.Ready order (e.initialised order) where
  state hm := by simp [Env.initialised, hm]
  address hm := by simp [Env.initialised, hm]
  harbor hm := by
    obtain ⟨members, hmem, hlisten⟩ := h.harbor hm
    refine ⟨members, _, by simp [Env.initialised, Env.members, hm, hmem], rfl, ?_⟩
    simp only [Env.initialised]
    split
    · next hmaster => simpa only [Env.port, hmaster, if_true] using hlisten
    · next hmaster => simpa only [Env.port, hmaster, if_false] using hlisten

theorem exists_launched (hmodules : ∀ a, a ∈ modules ↔ a ∈ order) (h : e.Starts order)
    (hm : m ∈ order) (hs : e.Ready order s) :
    ∃ t, ignoring (e.lifecycle.launched modules) m s = some t ∧ e.Ready order t := by
  simp only [launched_iff]
  cases m with
  | cluster =>
    obtain ⟨hh, hc⟩ := h.cluster hm
    obtain ⟨members, _, hmem, _⟩ := hs.harbor hh
    exact ⟨_, ⟨_, _, members, hs.address hm, hmem, ⟨(hmodules _).mpr hh, hc⟩, rfl⟩,
      ⟨hs.state, hs.address, hs.harbor⟩⟩
  | harbor =>
    obtain ⟨members, port, hmem, hport, hlisten⟩ := hs.harbor hm
    simp only [← hmodules] at hport
    refine ⟨_, ⟨members, port, hmem, hport, hlisten, rfl⟩, ⟨hs.state, hs.address, fun _ => ?_⟩⟩
    refine ⟨_, port, rfl, ?_, hlisten⟩
    simp only [← hmodules]
    split
    · next hmaster => rwa [if_pos hmaster] at hport
    · rfl
  | http =>
    obtain ⟨hse, thread, hthread⟩ := h.http hm
    exact ⟨_, ⟨hs.state hse, thread, hthread, rfl⟩, ⟨hs.state, hs.address, hs.harbor⟩⟩
  | master =>
    exact ⟨_, ⟨(hmodules _).mpr (h.master hm), rfl⟩, ⟨hs.state, hs.address, hs.harbor⟩⟩
  | rpc => exact ⟨_, ⟨hs.state (h.rpc hm).1, rfl⟩, ⟨hs.state, hs.address, hs.harbor⟩⟩
  | scriptEngine => exact ⟨_, ⟨hs.state hm, rfl⟩, ⟨hs.state, hs.address, hs.harbor⟩⟩
  | redis | starter => exact ⟨s, rfl, hs⟩

/-- They have outcomes where they find what they need. -/
theorem exists_started (hn : order.Nodup) (hmodules : ∀ a, a ∈ modules ↔ a ∈ order)
    (h : e.Starts order) : ∃ t, e.lifecycle.start modules order .init = some t := by
  have hinit : ∀ m ∈ order, ∀ s, True →
      ∃ t, ignoring (e.lifecycle.init modules) m s = some t ∧ True := by
    intro m hm s _
    simp only [init_iff, and_true]
    cases m with
    | harbor =>
      obtain ⟨members, hmem, _⟩ := h.harbor hm
      exact ⟨_, members, hmem, rfl⟩
    | http => exact ⟨s, (hmodules _).mpr (h.http hm).1, rfl⟩
    | rpc =>
      obtain ⟨hs, hh⟩ := h.rpc hm
      exact ⟨_, ⟨(hmodules _).mpr hs, (hmodules _).mpr hh⟩, rfl⟩
    | cluster | master | redis | scriptEngine | starter => exact ⟨_, rfl⟩
  obtain ⟨u, hu⟩ := exists_runAll hinit trivial (s := Startup.init)
  obtain rfl := init_eq hn hu
  obtain ⟨t, ht⟩ := exists_runAll (fun m hm s => exists_launched hmodules h hm)
    (ready_initialised h)
  exact ⟨t, Option.bind_eq_some_iff.mpr ⟨_, hu, ht⟩⟩

theorem start_iff (hn : order.Nodup) (hmodules : ∀ a, a ∈ modules ↔ a ∈ order) :
    e.lifecycle.start modules order .init = some t ↔ e.Starts order ∧ t = e.started order := by
  constructor
  · intro h
    obtain ⟨u, hu, ht⟩ := Option.bind_eq_some_iff.mp h
    have hstarts := starts_of_runAll hn hmodules hu ht
    rw [init_eq hn hu] at ht
    exact ⟨hstarts, launch_eq hn hmodules hstarts ht⟩
  · rintro ⟨hstarts, rfl⟩
    obtain ⟨t, ht⟩ := exists_started hn hmodules hstarts
    obtain ⟨u, hu, hl⟩ := Option.bind_eq_some_iff.mp ht
    rw [init_eq hn hu] at hl
    rw [ht, launch_eq hn hmodules hstarts hl]

theorem Env.Starts.congr {order' : List Module} (h : e.Starts order)
    (hmem : ∀ a, a ∈ order ↔ a ∈ order') : e.Starts order' := by
  obtain ⟨h1, h2, h3, h4, h5⟩ := h
  simp only [Env.port, hmem] at h1 h2 h3 h4 h5
  exact ⟨h1, h2, h3, h4, h5⟩

/-- A process starts exactly where no module is there twice and they find what they need; what it
is then, its configuration, its command line and its modules say. -/
theorem starts_as_configured {order : List Module → List Module} {libraries : List (List Module)}
    (horder : ∀ modules, (order modules).Perm modules) :
    LogicMgr.init e.lifecycle order libraries .init = some (true, t) ↔
      libraries.flatten.Nodup ∧ e.Starts libraries.flatten ∧
        t = e.started (order (loadModules libraries []).2) := by
  have ⟨hiff, hperm⟩ : ((loadModules libraries []).1 = true ↔ libraries.flatten.Nodup) ∧
      (libraries.flatten.Nodup → (loadModules libraries []).2.Perm libraries.flatten) := by
    simpa only [List.append_nil] using loadModules_iff List.nodup_nil
  rw [LogicMgr.init]
  cases hload : loadModules libraries [] with
  | mk ok modules =>
    rw [hload] at hiff hperm
    cases ok with
    | false => exact iff_of_false (by simp) fun h => Bool.false_ne_true (hiff.mpr h.1)
    | true =>
      have hn := hiff.mp rfl
      have hmem : ∀ a, a ∈ modules ↔ a ∈ order modules := fun a => (horder modules).mem_iff.symm
      have hflatten : ∀ a, a ∈ order modules ↔ a ∈ libraries.flatten := fun a =>
        (hmem a).symm.trans (hperm hn).mem_iff
      have hnodup : (order modules).Nodup := ((horder modules).trans (hperm hn)).nodup_iff.mpr hn
      have hstart := start_iff (e := e) (t := t) hnodup hmem
      constructor
      · intro h
        obtain ⟨s, hs, hst⟩ := Option.map_eq_some_iff.mp h
        cases hst
        obtain ⟨hstarts, ht⟩ := hstart.mp hs
        exact ⟨hn, hstarts.congr hflatten, ht⟩
      · rintro ⟨_, hstarts, ht⟩
        have hs := hstart.mpr ⟨hstarts.congr fun a => (hflatten a).symm, ht⟩
        exact Option.map_eq_some_iff.mpr ⟨t, hs, rfl⟩

/-- With Cluster and Rpc all the handlers are registered. -/
theorem started_handlers (hc : Module.cluster ∈ order) (hr : Module.rpc ∈ order) :
    (e.started order).handlers = registered := by
  have hall : ∀ handler, handlerModule handler ∈ order := by
    intro handler
    cases handler
    · exact hc
    all_goals exact hr
  funext nodeType messageId
  simp only [Env.started, hall, decide_true]
  cases registered nodeType messageId <;> rfl

/-- Its scripts are there or not, as the map gives the modules. -/
theorem starts_as_configured_gate :
    (∃ t, LogicMgr.init gateEnv.lifecycle id
        [[.harbor], [.cluster], [.scriptEngine], [.rpc]] .init = some (true, t) ∧
      t.listening = [⟨7001, 10240, 10240⟩] ∧ t.dialled.map Dialling.port = [17700] ∧
      t.entry = some true) ∧
    ∃ t, LogicMgr.init gateEnv.lifecycle List.reverse
        [[.harbor], [.cluster], [.scriptEngine], [.rpc]] .init = some (true, t) ∧
      t.entry = some false := by
  have hstarts : gateEnv.Starts [.harbor, .cluster, .scriptEngine, .rpc] :=
    { harbor := fun _ => ⟨_, rfl, .inr rfl⟩
      cluster := by decide
      master := by decide
      rpc := by decide
      http := fun h => absurd h (by decide) }
  exact ⟨⟨_, (starts_as_configured .refl).mpr ⟨by decide, hstarts, rfl⟩,
      by decide, by decide, by decide⟩,
    ⟨_, (starts_as_configured List.reverse_perm).mpr ⟨by decide, hstarts, rfl⟩, by decide⟩⟩

end HyperNet.Kernel
