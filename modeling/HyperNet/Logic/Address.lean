import HyperNet.Logic.Reconnect
import HyperNet.Net.Renaming
import HyperNet.Core.Simulation

/-! # The address of a node on its way (Harbor.cpp, NodeSession.cpp, Connector.h, Connection.h)

The text that `Harbor::Connect` is given is copied into a session, from there into each entry of
`_reconnects`, and on each dial into a connector and from that into a connection, whose text is
the remote ip of the session. Each copy is cut off at the size that the copying function takes its
buffer to have. What is dialled and when is as it is for sessions without their texts. -/
namespace HyperNet.Logic
open HyperNet.Core.History HyperNet.Core.Transition HyperNet.Net

/-! ## Texts -/

/-- `SafeSprintf(buf, size, text)`, which is `snprintf`, of a text without `%`. -/
def safeSprintf (size : Nat) (text : List Char) : List Char := text.take (size - 1)

/-- `MAX_IP_SIZE` of Define.h. -/
def nodeIpSize : Nat := 64

/-- `MAX_IP_SIZE` of NetHeader.h. -/
def netIpSize : Nat := 32

/-- `sizeof` of a pointer. -/
def pointerSize : Nat := 8

/-- `SetConnect` of `NodeSession`, and `AddReconnect`. -/
def keepIp (ip : List Char) : List Char := safeSprintf nodeIpSize ip

/-- `Connector::SetIp`: `ip` in `sizeof(ip)` is its parameter, a `const char *`. -/
def setIp (ip : List Char) : List Char := safeSprintf pointerSize ip

/-- `Connection::SetRemoteIp` -/
def setRemoteIp (ip : List Char) : List Char := safeSprintf (netIpSize - 1) ip

/-- An address in dotted notation. -/
structure Ipv4 where
  a : BitVec 8
  b : BitVec 8
  c : BitVec 8
  d : BitVec 8
  deriving DecidableEq

def octet (n : BitVec 8) : List Char := Nat.toDigits 10 n.toNat

namespace Ipv4

def text (ip : Ipv4) : List Char :=
  octet ip.a ++ '.' :: octet ip.b ++ '.' :: octet ip.c ++ '.' :: octet ip.d

end Ipv4

theorem length_octet_pos (n : BitVec 8) : 0 < (octet n).length := Nat.length_toDigits_pos

theorem length_octet_le (n : BitVec 8) : (octet n).length ≤ 3 :=
  (Nat.length_toDigits_le_iff (by decide) (by decide)).mpr (Nat.lt_trans n.isLt (by decide))

theorem length_octet_le_one (n : BitVec 8) : (octet n).length ≤ 1 ↔ n.toNat < 10 :=
  Nat.length_toDigits_le_iff (by decide) (by decide)

namespace Ipv4

theorem length_text (ip : Ipv4) : ip.text.length =
    (octet ip.a).length + (octet ip.b).length + (octet ip.c).length + (octet ip.d).length + 3 := by
  simp only [text, List.length_append, List.length_cons]
  omega

theorem length_text_le (ip : Ipv4) : ip.text.length ≤ 15 := by
  have ha := length_octet_le ip.a
  have hb := length_octet_le ip.b
  have hc := length_octet_le ip.c
  have hd := length_octet_le ip.d
  rw [length_text]
  omega

/-- The four numbers have one digit each. -/
def Short (ip : Ipv4) : Prop :=
  ip.a.toNat < 10 ∧ ip.b.toNat < 10 ∧ ip.c.toNat < 10 ∧ ip.d.toNat < 10

theorem short_iff (ip : Ipv4) : ip.Short ↔ ip.text.length ≤ 7 := by
  have ha := length_octet_pos ip.a
  have hb := length_octet_pos ip.b
  have hc := length_octet_pos ip.c
  have hd := length_octet_pos ip.d
  rw [Short, length_text, ← length_octet_le_one, ← length_octet_le_one, ← length_octet_le_one,
    ← length_octet_le_one]
  omega

@[simp] theorem keepIp_text (ip : Ipv4) : keepIp ip.text = ip.text :=
  List.take_of_length_le (Nat.le_trans ip.length_text_le (by decide))

/-- The remote ip is what fits where a pointer does. -/
theorem setRemoteIp_setIp (ip : List Char) : setRemoteIp (setIp ip) = ip.take 7 := by
  simp only [setRemoteIp, setIp, safeSprintf, List.take_take]
  rfl

theorem take_eq_text (ip : Ipv4) : ip.text.take 7 = ip.text ↔ ip.Short := by
  rw [List.take_eq_self_iff, short_iff]

end Ipv4

/-! ## The machine -/

/-- The session that a handler is given, with `_ip` and `_port` of its connector. -/
structure Handed where
  session : DialSession
  ip : List Char
  port : BitVec 32
  deriving DecidableEq

/-- `_ip` and `_port` of a session, or of an entry of `_reconnects` with its session. -/
structure NodeAddress where
  ip : List Char
  port : BitVec 32
  deriving DecidableEq

/-- `Harbor::Reconnect`, with its buffer. -/
structure ReconnectUnit where
  session : Nat
  address : NodeAddress
  tick : Int
  deriving DecidableEq

/-- What a call of `NetEngine::Connect` dials: the text for `inet_pton`, and `sin_port`. -/
structure Dialled where
  session : Nat
  ip : List Char
  sinPort : BitVec 16
  deriving DecidableEq

/-- A call of `Harbor::OnNodeOpen`, which hands the ip to the listeners. -/
structure NodeOpen where
  session : Nat
  ip : List Char
  deriving DecidableEq

structure Addresses where
  engine : NetEngine Handed
  /-- What `Connect` was called with, for the sessions that it has made. -/
  passed : List (Ipv4 × BitVec 32)
  sessions : List NodeAddress
  /-- `_remoteIp` of the connection that is `_pipe` of a session. -/
  pipes : Nat → Option (List Char)
  reconnects : List ReconnectUnit
  now : Int
  dialled : List Dialled
  opened : List NodeOpen

inductive AddressLabel
  /-- A step of the engine, and of the sessions that are not dialled. -/
  | engine (l : EngineLabel Handed)
  /-- `Harbor::Connect`. -/
  | connect (ip : Ipv4) (port : BitVec 32) (r : Opening)
  | clock (t : Int)
  /-- `Harbor::Loop`, with how each of its calls of `_kernel->Connect` ends. -/
  | loop (rs : List Opening)
  /-- `NodeSession::OnRecv` of the first packet, from `NetWorker::Process`. -/
  | report (n : Nat)
  deriving DecidableEq

namespace Addresses

def init : Addresses where
  engine := .init
  passed := []
  sessions := []
  pipes := fun _ => none
  reconnects := []
  now := 0
  dialled := []
  opened := []

/-- `GetRemoteIp` of a session. -/
def getRemoteIp (n : Nat) (w : Addresses) : Option (List Char) := w.pipes n

/-- `SetPipe` of a session that dials. -/
def setPipe (session : DialSession) (pipe : Option (List Char)) (w : Addresses) : Addresses :=
  match session with
  | .dialled n => { w with pipes := Function.update w.pipes n pipe }
  | .other => w

/-- `AddReconnect`, with the address that the session has. -/
def addReconnect (session : DialSession) (w : Addresses) : Addresses :=
  match session with
  | .dialled n =>
    match w.sessions[n]? with
    | some ⟨ip, port⟩ =>
      { w with reconnects := w.reconnects ++ [⟨n, ⟨keepIp ip, port⟩, w.now⟩] }
    | none => w
  | .other => w

/-- What the functions of a handler do with the addresses in an engine's step: `Connector::OnOut`
makes the connection, and the calls that end a session's connector or connection are over. -/
def around (w : Addresses) : EngineLabel Handed → Addresses
  | .next =>
    match w.engine.lookups.head? with
    | some q =>
      match w.engine.getHandler q.fd, q.flag with
      | some ⟨.connector x, _, _⟩, .epollout => w.setPipe x.session (some (setRemoteIp x.ip))
      | _, _ => w
    | none => w
  | .ret =>
    match w.engine.stack.head? with
    | some (.onConnectFailed x) => w.addReconnect x.session
    | some (.onDisconnected x _ _) => (w.addReconnect x.session).setPipe x.session none
    | _ => w
  | _ => w

/-- `NetEngine::Connect` of a session that dials. -/
def dial (n : Nat) (ip : List Char) (port : BitVec 32) (r : Opening) (w : Addresses) :
    Option Addresses :=
  (w.engine.connect ⟨.dialled n, setIp ip, port⟩ r).map fun e =>
    { w with engine := e, dialled := w.dialled ++ [⟨n, ip, port.setWidth 16⟩] }

/-- `Harbor::Connect`. -/
def connect (ip : Ipv4) (port : BitVec 32) (r : Opening) (w : Addresses) : Option Addresses :=
  dial w.passed.length ip.text port r { w with
    passed := w.passed ++ [(ip, port)]
    sessions := w.sessions ++ [⟨keepIp ip.text, port⟩] }

/-- `Harbor::Loop`. -/
def loop (reconnectTick : Int) :
    List ReconnectUnit → List Opening → Addresses → Option Addresses
  | [], _, w => some { w with reconnects := [] }
  | unit :: units, rs, w =>
    if unit.tick + reconnectTick > w.now then some { w with reconnects := unit :: units }
    else match rs with
      | [] => none
      | r :: rs =>
        (w.dial unit.session unit.address.ip unit.address.port r).bind
          (loop reconnectTick units rs)

/-- The labels that give the engine a session: none of those that dial. -/
def ofOthers : EngineLabel Handed → Bool
  | .connect x _ | .accept _ x => x.session == .other
  | _ => true

def step (reconnectTick : Int) (w : Addresses) : AddressLabel → Option Addresses
  | .engine l =>
    if ofOthers l then (w.engine.step l).map fun e => { w.around l with engine := e } else none
  | .connect ip port r => if w.engine.free then w.connect ip port r else none
  | .clock t => if w.now ≤ t then some { w with now := t } else none
  | .loop rs =>
    if w.engine.stack = [] ∧ w.engine.lookups = [] then loop reconnectTick w.reconnects rs w
    else none
  | .report n =>
    match w.engine.stack.head?, w.getRemoteIp n with
    | some .outside, some ip => some { w with opened := w.opened ++ [⟨n, ip⟩] }
    | _, _ => none

end Addresses

/-- A Harbor with so many milliseconds before it dials again. -/
def addresses (reconnectTick : Int) : System Addresses AddressLabel :=
  ⟨.init, Addresses.step reconnectTick⟩

namespace Addresses
variable {w w' : Addresses} {n : Nat} {reconnectTick : Int}

@[simp] theorem setPipe_engine (session : DialSession) (pipe : Option (List Char)) :
    (w.setPipe session pipe).engine = w.engine := by
  cases session <;> rfl

@[simp] theorem addReconnect_engine (session : DialSession) :
    (w.addReconnect session).engine = w.engine := by
  cases session with
  | other => rfl
  | dialled n =>
    rw [addReconnect]
    split <;> rfl

theorem around_engine (l : EngineLabel Handed) : (w.around l).engine = w.engine := by
  cases l with
  | next =>
    simp only [around]
    split
    · split
      · rw [setPipe_engine]
      · rfl
    · rfl
  | ret =>
    simp only [around]
    split
    · rw [addReconnect_engine]
    · rw [setPipe_engine, addReconnect_engine]
    · rfl
  | _ => rfl

/-! ## What each copy has of what was passed -/

/-- Everything that has a text, has it from what `Connect` was called with for its session: the
whole text, up to the connector. -/
structure Kept (w : Addresses) : Prop where
  engine : w.engine.Consistent
  sessions : w.sessions = w.passed.map fun p => ⟨p.1.text, p.2⟩
  reconnects : ∀ u ∈ w.reconnects, w.sessions[u.session]? = some u.address
  dialled : ∀ d ∈ w.dialled, ∃ port,
    w.sessions[d.session]? = some ⟨d.ip, port⟩ ∧ d.sinPort = port.setWidth 16
  held : ∀ x n, 0 < w.engine.held x → x.session = .dialled n →
    ∃ a, w.sessions[n]? = some a ∧ x.ip = setIp a.ip
  pipes : ∀ n ip, w.pipes n = some ip → ∃ a, w.sessions[n]? = some a ∧ ip = setRemoteIp (setIp a.ip)
  opened : ∀ o ∈ w.opened, ∃ a,
    w.sessions[o.session]? = some a ∧ o.ip = setRemoteIp (setIp a.ip)

namespace Kept

theorem dial (hk : w.Kept) {address : NodeAddress} (ha : w.sessions[n]? = some address)
    {r : Opening} (hs : w.dial n address.ip address.port r = some w') : w'.Kept := by
  obtain ⟨e, he, rfl⟩ := Option.map_eq_some_iff.mp hs
  refine ⟨hk.engine.connect he, hk.sessions, hk.reconnects, forall_snoc hk.dialled ⟨_, ha, rfl⟩,
    fun x m hheld hx => ?_, hk.pipes, hk.opened⟩
  have hconnect := hk.engine.held_connect (s := x) he
  by_cases hw : 0 < w.engine.held x
  · exact hk.held x m hw hx
  · have hx' : (⟨.dialled n, setIp address.ip, address.port⟩ : Handed) = x := by
      by_contra hne
      have hheld : 0 < e.held x := hheld
      rw [beq_eq_false_iff_ne.mpr hne, Bool.false_and, Bool.toNat_false, Nat.add_zero] at hconnect
      exact hw (hconnect ▸ hheld)
    subst hx'
    cases hx
    exact ⟨address, ha, rfl⟩

theorem connect (hk : w.Kept) {ip : Ipv4} {port : BitVec 32} {r : Opening}
    (hs : w.connect ip port r = some w') : w'.Kept := by
  let w₁ : Addresses := { w with
    passed := w.passed ++ [(ip, port)], sessions := w.sessions ++ [⟨keepIp ip.text, port⟩] }
  have grow {m : Nat} {a : NodeAddress} (h : w.sessions[m]? = some a) :
      w₁.sessions[m]? = some a := by
    rw [← h]
    exact List.getElem?_append_left (List.getElem?_eq_some_iff.mp h).1
  have hk₁ : w₁.Kept := by
    refine ⟨hk.engine, ?_, fun u hu => grow (hk.reconnects u hu), fun d hd => ?_,
      fun x m hheld hx => ?_, fun m text hp => ?_, fun o ho => ?_⟩
    · simp only [w₁, hk.sessions, List.map_append, List.map_singleton, Ipv4.keepIp_text]
    · obtain ⟨port, ha, hport⟩ := hk.dialled d hd
      exact ⟨port, grow ha, hport⟩
    · obtain ⟨a, ha, hip⟩ := hk.held x m hheld hx
      exact ⟨a, grow ha, hip⟩
    · obtain ⟨a, ha, hip⟩ := hk.pipes m text hp
      exact ⟨a, grow ha, hip⟩
    · obtain ⟨a, ha, hip⟩ := hk.opened o ho
      exact ⟨a, grow ha, hip⟩
  have hlen : w.sessions.length = w.passed.length := by rw [hk.sessions, List.length_map]
  have hnew : w₁.sessions[w.passed.length]? = some ⟨ip.text, port⟩ := by
    rw [← hlen, ← ip.keepIp_text]
    exact List.getElem?_concat_length
  exact hk₁.dial hnew hs

theorem setReconnects (hk : w.Kept) {units : List ReconnectUnit}
    (hu : ∀ u ∈ units, w.sessions[u.session]? = some u.address) :
    Kept { w with reconnects := units } :=
  ⟨hk.engine, hk.sessions, hu, hk.dialled, hk.held, hk.pipes, hk.opened⟩

theorem loop (hk : w.Kept) {units : List ReconnectUnit}
    (hu : ∀ u ∈ units, w.sessions[u.session]? = some u.address) {rs : List Opening}
    (hs : loop reconnectTick units rs w = some w') : w'.Kept := by
  induction units generalizing w rs with
  | nil =>
    cases hs
    exact hk.setReconnects hu
  | cons unit units ih =>
    unfold Addresses.loop at hs
    split at hs
    · cases hs
      exact hk.setReconnects hu
    · cases rs with
      | nil => cases hs
      | cons r rs =>
        obtain ⟨w₁, hd, hs⟩ := Option.bind_eq_some_iff.mp hs
        have hk₁ := hk.dial (hu unit List.mem_cons_self) hd
        obtain ⟨e, _, rfl⟩ := Option.map_eq_some_iff.mp hd
        exact ih hk₁ (fun u h => hu u (List.mem_cons_of_mem unit h)) hs

theorem setPipe (hk : w.Kept) {session : DialSession} {pipe : Option (List Char)}
    (h : ∀ n ip, session = .dialled n → pipe = some ip →
      ∃ a, w.sessions[n]? = some a ∧ ip = setRemoteIp (setIp a.ip)) :
    (w.setPipe session pipe).Kept := by
  cases session with
  | other => exact hk
  | dialled m =>
    refine ⟨hk.engine, hk.sessions, hk.reconnects, hk.dialled, hk.held, fun n ip hp => ?_,
      hk.opened⟩
    have hp : Function.update w.pipes m pipe n = some ip := hp
    by_cases hn : n = m
    · subst hn
      rw [Function.update_self] at hp
      exact h n ip rfl hp
    · rw [Function.update_of_ne hn] at hp
      exact hk.pipes n ip hp

/-- The text of a session fits into its buffer. -/
theorem keepIp_eq (hk : w.Kept) {ip : List Char} {port : BitVec 32}
    (ha : w.sessions[n]? = some ⟨ip, port⟩) : keepIp ip = ip := by
  rw [hk.sessions, List.getElem?_map] at ha
  obtain ⟨p, _, hp⟩ := Option.map_eq_some_iff.mp ha
  cases hp
  exact p.1.keepIp_text

theorem addReconnect (hk : w.Kept) (session : DialSession) : (w.addReconnect session).Kept := by
  cases session with
  | other => exact hk
  | dialled n =>
    rw [Addresses.addReconnect]
    split
    · next ip port ha =>
      refine hk.setReconnects (forall_snoc hk.reconnects ?_)
      rw [hk.keepIp_eq ha]
      exact ha
    · exact hk

/-- Of those that dial, the engine has no session that it did not have. -/
theorem setEngine (hk : w.Kept) {e : NetEngine Handed} (he : e.Consistent)
    (hheld : ∀ x n, x.session = .dialled n → 0 < e.held x → 0 < w.engine.held x) :
    Kept { w with engine := e } :=
  ⟨he, hk.sessions, hk.reconnects, hk.dialled,
    fun x n hpos hx => hk.held x n (hheld x n hx hpos) hx, hk.pipes, hk.opened⟩

theorem around (hk : w.Kept) (l : EngineLabel Handed) : (w.around l).Kept := by
  cases l with
  | next =>
    simp only [Addresses.around]
    split
    · split
      · next x fd socket hg _ =>
        have hmem := List.mem_of_find?_eq_some hg
        have hpos : 0 < w.engine.held x :=
          Nat.lt_of_lt_of_le (List.countP_pos_iff.mpr ⟨_, hmem, by simp [INetHandler.holds]⟩)
            (Nat.le_add_right _ _)
        refine hk.setPipe fun n ip hx hip => ?_
        obtain ⟨a, ha, hxip⟩ := hk.held x n hpos hx
        exact ⟨a, ha, by rw [← Option.some.inj hip, hxip]⟩
      · exact hk
    · exact hk
  | ret =>
    simp only [Addresses.around]
    split
    · exact hk.addReconnect _
    · refine (hk.addReconnect _).setPipe fun n ip _ h => ?_
      cases h
    · exact hk
  | _ => exact hk

theorem engineStep (hk : w.Kept) {e : NetEngine Handed} {l : EngineLabel Handed}
    (ho : ofOthers l = true) (hs : w.engine.step l = some e) :
    Kept { w.around l with engine := e } := by
  refine (hk.around l).setEngine (hk.engine.step hs) fun x n hx hpos => ?_
  have hheld := hk.engine.held_step (s := x) (NetEngine.step_cases hs)
  have hne (y : Handed) (hy : (y.session == .other) = true) : (y == x) = false := by
    refine beq_eq_false_iff_ne.mpr fun heq => ?_
    rw [heq, hx] at hy
    cases hy
  have henter : NetEngine.entering x l = 0 := by
    cases l with
    | connect y r => rw [NetEngine.entering, hne y ho]; rfl
    | accept fd y => rw [NetEngine.entering, hne y ho]; rfl
    | _ => rfl
  rw [around_engine]
  omega

theorem step (hk : w.Kept) {l : AddressLabel} (hs : w.step reconnectTick l = some w') :
    w'.Kept := by
  cases l with
  | engine l =>
    simp only [Addresses.step] at hs
    split at hs
    · next ho =>
      obtain ⟨e, he, rfl⟩ := Option.map_eq_some_iff.mp hs
      exact hk.engineStep ho he
    · cases hs
  | connect ip port r =>
    simp only [Addresses.step] at hs
    split at hs
    · exact hk.connect hs
    · cases hs
  | clock t =>
    simp only [Addresses.step] at hs
    split at hs
    · cases hs
      exact ⟨hk.engine, hk.sessions, hk.reconnects, hk.dialled, hk.held, hk.pipes, hk.opened⟩
    · cases hs
  | loop rs =>
    simp only [Addresses.step] at hs
    split at hs
    · exact hk.loop hk.reconnects hs
    · cases hs
  | report n =>
    simp only [Addresses.step] at hs
    split at hs
    · next ip _ hp =>
      cases hs
      exact ⟨hk.engine, hk.sessions, hk.reconnects, hk.dialled, hk.held, hk.pipes,
        forall_snoc hk.opened (hk.pipes n ip hp)⟩
    · cases hs

end Kept

theorem kept_init : init.Kept where
  engine := NetEngine.consistent_init
  sessions := rfl
  reconnects := nofun
  dialled := nofun
  held _ _ h := absurd h (Nat.lt_irrefl 0)
  pipes := nofun
  opened := nofun

theorem kept (h : (addresses reconnectTick).Reachable w) : w.Kept :=
  h.invariant kept_init fun _ _ _ _ ih hs => ih.step hs

/-! ## The sessions without their texts -/

def ReconnectUnit.forget (u : ReconnectUnit) : Reconnect :=
  ⟨u.session, .ofList u.address.ip, u.address.port.toInt, u.tick⟩

/-- Nothing but the texts is different. -/
structure Follows (w : Addresses) (d : Dialler) : Prop where
  engine : d.engine = w.engine.map Handed.session
  sessions : d.sessions = w.sessions.map fun a => (.ofList a.ip, a.port.toInt)
  reconnects : d.reconnects = w.reconnects.map ReconnectUnit.forget
  now : d.now = w.now
  dialled : d.trace.map (fun x => (x.session, x.ip, BitVec.ofInt 16 x.port)) =
    w.dialled.map fun x => (x.session, .ofList x.ip, x.sinPort)

/-- The step of the sessions without their texts; a report is none of theirs. -/
def act (_ : Addresses) : AddressLabel → Option DiallerLabel
  | .engine l => some (.engine (l.map Handed.session))
  | .connect ip port r => some (.connect (.ofList ip.text) port.toInt r)
  | .clock t => some (.clock t)
  | .loop rs => some (.loop rs)
  | .report _ => none

namespace Follows
variable {d : Dialler}

theorem setPipe (hf : w.Follows d) (session : DialSession) (pipe : Option (List Char)) :
    (w.setPipe session pipe).Follows d := by
  cases session with
  | other => exact hf
  | dialled n => exact ⟨hf.engine, hf.sessions, hf.reconnects, hf.now, hf.dialled⟩

theorem addReconnect (hf : w.Follows d) (hk : w.Kept) (n : Nat) :
    (w.addReconnect (.dialled n)).Follows (d.addReconnect n) := by
  have hsession : d.sessions[n]? = w.sessions[n]?.map fun a => (.ofList a.ip, a.port.toInt) := by
    rw [hf.sessions, List.getElem?_map]
  rw [Addresses.addReconnect, Dialler.addReconnect, hsession]
  cases ha : w.sessions[n]? with
  | none => exact hf
  | some a =>
    refine ⟨hf.engine, hf.sessions, ?_, hf.now, hf.dialled⟩
    show d.reconnects ++ [_] = (w.reconnects ++ [_]).map ReconnectUnit.forget
    rw [List.map_append, ← hf.reconnects, hk.keepIp_eq ha, hf.now]
    rfl

/-- What a session does where its call returns. -/
theorem ret (hf : w.Follows d) (hk : w.Kept) : (w.around .ret).Follows d.callback := by
  have hhead : d.engine.stack.head? = w.engine.stack.head?.map (·.map Handed.session) := by
    rw [hf.engine]
    exact List.head?_map ..
  rw [around, Dialler.callback, hhead]
  cases w.engine.stack.head? with
  | none => exact hf
  | some frame =>
    cases frame with
    | onConnectFailed x =>
      obtain ⟨session, ip, port⟩ := x
      cases session with
      | other => exact hf
      | dialled n => exact hf.addReconnect hk n
    | onDisconnected x fd s =>
      obtain ⟨session, ip, port⟩ := x
      cases session with
      | other => exact hf
      | dialled n => exact (hf.addReconnect hk n).setPipe _ _
    | onIn | onConnected | connection | outside => exact hf

theorem around (hf : w.Follows d) (hk : w.Kept) (l : EngineLabel Handed) :
    (w.around l).Follows (if l.map Handed.session = .ret then d.callback else d) := by
  cases l with
  | ret => exact hf.ret hk
  | next =>
    simp only [Addresses.around]
    split
    · split
      · exact hf.setPipe _ _
      · exact hf
    · exact hf
  | _ => exact hf

theorem setEngine (hf : w.Follows d) {e : NetEngine Handed} {e' : NetEngine DialSession}
    (he : e' = e.map Handed.session) :
    Follows { w with engine := e } { d with engine := e' } :=
  ⟨he, hf.sessions, hf.reconnects, hf.now, hf.dialled⟩

/-- A call of `_kernel->Connect` for a session. -/
theorem dial (hf : w.Follows d) {ip : List Char} {port : BitVec 32} {r : Opening}
    (hs : w.dial n ip port r = some w') :
    ∃ e, d.engine.connect (.dialled n) r = some e ∧
      w'.Follows { d with
        engine := e, trace := d.trace ++ [⟨n, .ofList ip, port.toInt, r.ok⟩] } := by
  obtain ⟨e, he, rfl⟩ := Option.map_eq_some_iff.mp hs
  have hconnect := NetEngine.map_connect (f := Handed.session) (w := w.engine)
    ⟨.dialled n, setIp ip, port⟩ r
  rw [he, ← hf.engine] at hconnect
  refine ⟨_, hconnect, rfl, hf.sessions, hf.reconnects, hf.now, ?_⟩
  show (d.trace ++ [_]).map _ = (w.dialled ++ [_]).map _
  rw [List.map_append, List.map_append, hf.dialled, List.map_singleton, List.map_singleton,
    ← BitVec.signExtend_eq_setWidth_of_le port (by decide)]
  rfl

theorem connect (hf : w.Follows d) (hk : w.Kept) {ip : Ipv4} {port : BitVec 32} {r : Opening}
    (hs : w.connect ip port r = some w') :
    ∃ d', d.connect (.ofList ip.text) port.toInt r = some d' ∧ w'.Follows d' := by
  have hlength : d.sessions.length = w.passed.length := by
    rw [hf.sessions, List.length_map, hk.sessions, List.length_map]
  have hsessions : d.sessions ++ [(.ofList ip.text, port.toInt)] =
      (w.sessions ++ [(⟨keepIp ip.text, port⟩ : NodeAddress)]).map
        fun a => (.ofList a.ip, a.port.toInt) := by
    rw [List.map_append, ← hf.sessions, ip.keepIp_text]
    rfl
  have hmade : Follows
      { w with
        passed := w.passed ++ [(ip, port)]
        sessions := w.sessions ++ [⟨keepIp ip.text, port⟩] }
      { d with sessions := d.sessions ++ [(.ofList ip.text, port.toInt)] } :=
    ⟨hf.engine, hsessions, hf.reconnects, hf.now, hf.dialled⟩
  obtain ⟨e, he, hf'⟩ := hmade.dial hs
  rw [← hlength] at he hf'
  exact ⟨_, congrArg (Option.map _) he, hf'⟩

theorem loop (hf : w.Follows d) {units : List ReconnectUnit} {rs : List Opening}
    (hs : loop reconnectTick units rs w = some w') :
    ∃ e left dials, Dialler.loop reconnectTick d.now (units.map ReconnectUnit.forget) rs d.engine =
        some (e, left, dials) ∧
      w'.Follows { d with engine := e, reconnects := left, trace := d.trace ++ dials } := by
  induction units generalizing w d rs with
  | nil =>
    cases hs
    exact ⟨d.engine, [], [], rfl, hf.engine, hf.sessions, rfl, hf.now,
      by rw [List.append_nil]; exact hf.dialled⟩
  | cons unit units ih =>
    unfold Addresses.loop at hs
    rw [List.map_cons]
    unfold Dialler.loop
    split at hs
    · next hlate =>
      cases hs
      rw [← hf.now] at hlate
      exact ⟨_, _, _, if_pos hlate, hf.engine, hf.sessions, rfl, hf.now,
        by rw [List.append_nil]; exact hf.dialled⟩
    · next hdue =>
      rw [← hf.now] at hdue
      rw [if_neg (show ¬(ReconnectUnit.forget unit).tick + reconnectTick > d.now from hdue)]
      cases rs with
      | nil => cases hs
      | cons r rs =>
        obtain ⟨w₁, hd, hs⟩ := Option.bind_eq_some_iff.mp hs
        obtain ⟨e₁, he₁, hf₁⟩ := hf.dial hd
        obtain ⟨e, left, dials, hloop, hf'⟩ := ih hf₁ hs
        refine ⟨e, left,
          ⟨unit.session, .ofList unit.address.ip, unit.address.port.toInt, r.ok⟩ :: dials, ?_, ?_⟩
        · show (d.engine.connect (.dialled unit.session) r).bind _ = _
          rw [he₁, Option.bind_some, hloop]
          rfl
        · rw [List.append_assoc] at hf'
          exact hf'

end Follows

theorem ofOthers_map (l : EngineLabel Handed) :
    Dialler.ofOthers (l.map Handed.session) = ofOthers l := by
  cases l <;> rfl

/-- The machine dials as the one without texts does. -/
theorem simulates : Simulates (addresses reconnectTick) (fun _ _ => True) (dialler reconnectTick)
    (fun _ _ => True) act fun w d => w.Kept ∧ w.Follows d where
  init := ⟨kept_init, rfl, rfl, rfl, rfl, rfl⟩
  silent := by
    intro w d l w' ⟨hk, hf⟩ _ hs ha
    have hk' := hk.step hs
    cases l with
    | report n =>
      simp only [addresses, step] at hs
      split at hs
      · cases hs
        exact ⟨hk', hf.engine, hf.sessions, hf.reconnects, hf.now, hf.dialled⟩
      · cases hs
    | engine | connect | clock | loop => cases ha
  step := by
    intro w d l w' k ⟨hk, hf⟩ _ hs ha
    have hk' := hk.step hs
    refine ⟨trivial, ?_⟩
    cases l with
    | report n => cases ha
    | engine l =>
      cases ha
      simp only [addresses, step] at hs
      split at hs
      · next ho =>
        obtain ⟨e, he, rfl⟩ := Option.map_eq_some_iff.mp hs
        have hstep := NetEngine.step_map (f := Handed.session) he
        rw [← hf.engine] at hstep
        rw [← ofOthers_map] at ho
        refine ⟨_, (if_pos ho).trans (congrArg (Option.map _) hstep), hk', ?_⟩
        exact (hf.around hk l).setEngine rfl
      · cases hs
    | connect ip port r =>
      cases ha
      simp only [addresses, step] at hs
      split at hs
      · next hfree =>
        have hfree' : d.engine.free := by
          rw [hf.engine, NetEngine.map_free]
          exact hfree
        obtain ⟨d', hd, hf'⟩ := hf.connect hk hs
        exact ⟨d', (if_pos hfree').trans hd, hk', hf'⟩
      · cases hs
    | clock t =>
      cases ha
      simp only [addresses, step] at hs
      split at hs
      · next hle =>
        cases hs
        exact ⟨_, if_pos (hf.now ▸ hle), hk', hf.engine, hf.sessions, hf.reconnects, rfl,
          hf.dialled⟩
      · cases hs
    | loop rs =>
      cases ha
      simp only [addresses, step] at hs
      split at hs
      · next hidle =>
        obtain ⟨e, left, dials, hloop, hf'⟩ := hf.loop hs
        have hempty : d.engine.stack = [] ∧ d.engine.lookups = [] := by
          rw [hf.engine]
          exact ⟨List.map_eq_nil_iff.mpr hidle.1, hidle.2⟩
        refine ⟨_, (if_pos hempty).trans ?_, hk', hf'⟩
        rw [hf.reconnects, hloop]
        rfl
      · cases hs

/-- Each state of the machine is one of the sessions without texts, with the texts added. -/
theorem reachable_dialler (h : (addresses reconnectTick).Reachable w) :
    ∃ d, (dialler reconnectTick).Reachable d ∧ w.Follows d := by
  obtain ⟨d, hd, _, hf⟩ := simulates.run h
  exact ⟨d, hd, hf⟩

/-! ## The address that is dialled, and the one that is told -/

/-- Everything that `Connect` was called with for a session has got where it goes. -/
structure Faithful (n : Nat) (ip : Ipv4) (port : BitVec 32) (w : Addresses) : Prop where
  dialled : ∀ d ∈ w.dialled, d.session = n → d.ip = ip.text ∧ (d.sinPort.toNat : Int) = port.toInt
  remote : ∀ text, w.getRemoteIp n = some text → text = ip.text
  opened : ∀ o ∈ w.opened, o.session = n → o.ip = ip.text

theorem toNat_setWidth_eq_toInt (port : BitVec 32) :
    ((port.setWidth 16).toNat : Int) = port.toInt ↔ port.toNat < 65536 := by
  rw [BitVec.toNat_setWidth, BitVec.toInt_eq_toNat_cond]
  split <;> omega

/-- A session that is dialled and gets its connection. -/
def dialling (ip : Ipv4) (port : BitVec 32) : List AddressLabel :=
  [.engine .outside, .connect ip port (.made 4), .engine .ret,
    .engine (.wait [⟨0, 4, false, true, false⟩]), .engine .next]

theorem exec_dialling (reconnectTick : Int) (ip : Ipv4) (port : BitVec 32) :
    ∃ w, (addresses reconnectTick).Reachable w ∧ w.passed = [(ip, port)] ∧
      w.dialled = [⟨0, ip.text, port.setWidth 16⟩] ∧
      w.getRemoteIp 0 = some (setRemoteIp (setIp ip.text)) := by
  have hmap : ((addresses reconnectTick).exec (fun _ _ => True) init (dialling ip port)).map
      (fun w => (w.passed, w.dialled, w.getRemoteIp 0)) =
        some ([(ip, port)], [⟨0, ip.text, port.setWidth 16⟩],
          some (setRemoteIp (setIp ip.text))) := rfl
  obtain ⟨w, he, hw⟩ := Option.map_eq_some_iff.mp hmap
  obtain ⟨hpassed, hw⟩ := Prod.mk.inj hw
  obtain ⟨hdialled, hremote⟩ := Prod.mk.inj hw
  exact ⟨w, System.Run.exec .start he, hpassed, hdialled, hremote⟩

/-- In every run a node is dialled at the address that was passed, and it is what is told of the
node, if and only if the four numbers have one digit each and the port has 16 bits. -/
theorem address_fidelity (reconnectTick : Int) (ip : Ipv4) (port : BitVec 32) :
    (∀ w n, (addresses reconnectTick).Reachable w → w.passed[n]? = some (ip, port) →
      w.Faithful n ip port) ↔ ip.Short ∧ port.toNat < 65536 := by
  constructor
  · intro hall
    obtain ⟨w, h, hpassed, hdialled, hremote⟩ := exec_dialling reconnectTick ip port
    have hf := hall w 0 h (by rw [hpassed]; rfl)
    constructor
    · rw [← Ipv4.take_eq_text, ← Ipv4.setRemoteIp_setIp]
      exact hf.remote _ hremote
    · rw [← toNat_setWidth_eq_toInt]
      exact (hf.dialled _ (by rw [hdialled]; exact List.mem_singleton_self _) rfl).2
  · intro ⟨hshort, hport⟩ w n h hpassed
    have hk := kept h
    have hsession : w.sessions[n]? = some ⟨ip.text, port⟩ := by
      rw [hk.sessions, List.getElem?_map, hpassed, Option.map_some]
    have hcut : setRemoteIp (setIp ip.text) = ip.text := by
      rw [Ipv4.setRemoteIp_setIp, Ipv4.take_eq_text]
      exact hshort
    refine ⟨fun d hd hn => ?_, fun text ht => ?_, fun o ho hn => ?_⟩
    · obtain ⟨p, ha, hp⟩ := hk.dialled d hd
      rw [hn, hsession] at ha
      obtain ⟨hip, rfl⟩ := NodeAddress.mk.inj (Option.some.inj ha)
      exact ⟨hip.symm, by rw [hp, toNat_setWidth_eq_toInt]; exact hport⟩
    · obtain ⟨a, ha, hip⟩ := hk.pipes n text ht
      rw [hsession] at ha
      cases ha
      rw [hip, hcut]
    · obtain ⟨a, ha, hip⟩ := hk.opened o ho
      rw [hn, hsession] at ha
      cases ha
      rw [hip, hcut]

/-- A node at 127.0.0.1 reports, and its listeners are told that it is at 127.0.0. -/
theorem address_cut : ∃ w : Addresses, (addresses 500).Reachable w ∧
    w.passed[0]? = some (⟨127, 0, 0, 1⟩, 5000) ∧
      w.opened = [⟨0, ['1', '2', '7', '.', '0', '.', '0']⟩] ∧
        ¬ w.Faithful 0 ⟨127, 0, 0, 1⟩ 5000 := by
  obtain ⟨w, h, hw⟩ := (addresses 500).run_of_exec (P := fun _ _ => True)
    (dialling ⟨127, 0, 0, 1⟩ 5000 ++ [.engine .ret, .engine .outside, .report 0])
    (p := fun w => w.passed[0]? == some (⟨127, 0, 0, 1⟩, 5000) &&
      w.opened == [⟨0, ['1', '2', '7', '.', '0', '.', '0']⟩]) (by decide)
  simp only [Bool.and_eq_true, beq_iff_eq] at hw
  refine ⟨w, h, hw.1, hw.2, fun hf => ?_⟩
  have hip := hf.opened _ (by rw [hw.2]; exact List.mem_singleton_self _) rfl
  exact absurd hip (by decide)

end Addresses
end HyperNet.Logic
