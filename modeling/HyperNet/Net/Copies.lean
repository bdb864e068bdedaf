import HyperNet.Net.RecvStream
import HyperNet.Net.SendWakeup

/-! # The copies of a connection (memcpy and memmove in Connection.cpp)

Before it copies, the connection compares a sum of two `s32` with the size of a buffer. The
copies of a step are listed here as the source makes them, from the offsets alone; the
steps of the connection that have no outcome are those whose list leaves a buffer. -/
namespace HyperNet.Net
open HyperNet.Api HyperNet.Public HyperNet.Core.Transition

/-- One `memcpy` or `memmove` of `count` bytes, with the sizes of what it writes and of what
it reads. -/
structure Copy where
  target : Nat
  targetSize : Nat
  source : Nat
  sourceSize : Nat
  count : Nat
  deriving DecidableEq

def Copy.InBounds (c : Copy) : Prop :=
  c.target + c.count ≤ c.targetSize ∧ c.source + c.count ≤ c.sourceSize

namespace Buffer
variable {n : Nat}

theorem offset_le (b : Buffer n) : b.offset ≤ n := b.le_size

/-- The check keeps a copy inside the buffer exactly where its sum is an `s32`. -/
theorem check_iff {b : Buffer n} {k : Nat} (hn : n < s32Bound) (hk : k < s32Bound) :
    (b.exceeds k = false → b.offset + k ≤ n) ↔ b.offset + k < s32Bound := by
  have hb := b.offset_le
  constructor
  · intro h
    by_contra hsum
    have hneg := s32_neg (k := b.offset + k) (by omega) (by omega)
    have hpass : b.exceeds k = false := by
      refine decide_eq_false ?_
      omega
    have := h hpass
    omega
  · intro hsum hx
    by_contra hle
    rw [(exceeds_iff hsum).mpr (by omega)] at hx
    cases hx

/-- The same for the bytes of another buffer of the size. -/
theorem check_buffer {b b' : Buffer n} (hn : n < s32Bound) :
    (b.exceeds b'.offset = false → b.offset + b'.offset ≤ n) ↔
      b.offset + b'.offset < s32Bound :=
  check_iff hn (Nat.lt_of_le_of_lt b'.offset_le hn)

theorem append?_isSome {b : Buffer n} {context : List UInt8} :
    (b.append? context).isSome = true ↔ b.offset + context.length ≤ n := by
  unfold append?
  split <;> simp [*]

/-- The copy of one buffer behind the bytes of another, where there is something to copy and
the check lets it pass. -/
def copyInto (b b' : Buffer n) : List Copy :=
  if 0 < b'.offset ∧ b.exceeds b'.offset = false then [⟨b.offset, n, 0, n, b'.offset⟩] else []

theorem copyInto_inBounds {b b' : Buffer n} (hn : n < s32Bound) :
    (∀ c ∈ b.copyInto b', c.InBounds) ↔ b.offset + b'.offset < s32Bound := by
  rw [← check_buffer hn, copyInto]
  split
  · next h =>
    have hle := b'.offset_le
    simp only [List.mem_singleton, forall_eq, Copy.InBounds]
    exact ⟨fun hc _ => hc.1, fun hc => ⟨hc h.2, by omega⟩⟩
  · next h =>
    have hle := b.offset_le
    refine ⟨fun _ hx => ?_, fun _ => nofun⟩
    have hzero : b'.offset = 0 := by
      by_contra hne
      exact h ⟨by omega, hx⟩
    omega

end Buffer

/-! ## The copies of an event -/

namespace SendSide
variable {n : Nat}

/-- The `memcpy` of `BeginSend`. -/
def copies (e : NetEventType) (s : SendSide n) : List Copy :=
  match s.state.onEvent e with
  | .beginSend _ => s.worked.copyInto s.used
  | .stay | .change _ => []

/-- The sum that `BeginSend` compares is an `s32`. -/
def SumFits (e : NetEventType) (s : SendSide n) : Prop :=
  match s.state.onEvent e with
  | .beginSend _ => s.worked.offset + s.used.offset < s32Bound
  | .stay | .change _ => True

instance (e : NetEventType) (s : SendSide n) : Decidable (s.SumFits e) := by
  unfold SumFits
  split <;> infer_instance

theorem copies_inBounds {e : NetEventType} {s : SendSide n} (hn : n < s32Bound) :
    (∀ c ∈ s.copies e, c.InBounds) ↔ s.SumFits e := by
  cases ha : s.state.onEvent e with
  | stay | change => simp [copies, SumFits, ha]
  | beginSend =>
    simp only [copies, SumFits, ha]
    exact Buffer.copyInto_inBounds hn

theorem onEvent_isSome {e : NetEventType} {s : SendSide n} (hn : n < s32Bound) :
    (s.onEvent e).isSome = true ↔ s.SumFits e := by
  cases ha : s.state.onEvent e with
  | stay | change => simp [onEvent, SumFits, ha]
  | beginSend =>
    have hle := s.worked.offset_le
    simp only [onEvent, SumFits, ha, Option.isSome_map, beginSend]
    rw [← Buffer.check_buffer hn]
    split
    · split
      · next hx => simp [hx]
      · next hx =>
        rw [Option.isSome_map, Buffer.append?_isSome]
        exact ⟨fun h _ => h, fun h => h (Bool.eq_false_iff.mpr hx)⟩
    · exact ⟨fun _ _ => by omega, fun _ => rfl⟩

/-- An event after which nothing is sent. -/
theorem sumFits_of_ne {e : NetEventType} {s : SendSide n}
    (h : ∀ t, s.state.onEvent e ≠ .beginSend t) : s.SumFits e := by
  unfold SumFits
  split
  · next t ht => exact absurd ht (h t)
  · trivial
  · trivial

end SendSide

namespace RecvSide
variable {n : Nat}

/-- The `memcpy` of `ProcessPacket`. -/
def copies (e : NetEventType) (r : RecvSide n) : List Copy :=
  match r.state.onEvent e with
  | .processPacket _ => r.used.copyInto r.worked
  | .stay | .change _ | .beginRecv _ => []

/-- The `memmove` of `ProcessPacket`, where its loop ends at `pos`. -/
def moves (p : PacketParser) (pos : Nat) (r : RecvSide n) : List Copy :=
  if (r.parse p pos).1 = .done true ∧ 0 < pos ∧ pos < r.used.offset then
    [⟨0, n, pos, n, r.used.offset - pos⟩]
  else []

/-- The sum that `ProcessPacket` compares is an `s32`. -/
def SumFits (e : NetEventType) (r : RecvSide n) : Prop :=
  match r.state.onEvent e with
  | .processPacket _ => r.used.offset + r.worked.offset < s32Bound
  | .stay | .change _ | .beginRecv _ => True

instance (e : NetEventType) (r : RecvSide n) : Decidable (r.SumFits e) := by
  unfold SumFits
  split <;> infer_instance

theorem copies_inBounds {e : NetEventType} {r : RecvSide n} (hn : n < s32Bound) :
    (∀ c ∈ r.copies e, c.InBounds) ↔ r.SumFits e := by
  cases ha : r.state.onEvent e with
  | stay | change | beginRecv => simp [copies, SumFits, ha]
  | processPacket =>
    simp only [copies, SumFits, ha]
    exact Buffer.copyInto_inBounds hn

theorem processPacket_isSome {p : PacketParser} {r : RecvSide n} (hn : n < s32Bound) :
    (r.processPacket p).isSome = true ↔ r.used.offset + r.worked.offset < s32Bound := by
  have hle := r.used.offset_le
  rw [← Buffer.check_buffer hn, processPacket]
  split
  · split
    · next hx => simp [hx]
    · next hx =>
      rw [Option.isSome_map, Buffer.append?_isSome]
      exact ⟨fun h _ => h, fun h => h (Bool.eq_false_iff.mpr hx)⟩
  · exact ⟨fun _ _ => by omega, fun _ => rfl⟩

theorem sumFits_of_ne {e : NetEventType} {r : RecvSide n} (h : e ≠ .recvDone) : r.SumFits e := by
  unfold SumFits
  split
  · next ha => exact absurd (RecvState.processPacket_cases ha).1 h
  · trivial
  · trivial
  · trivial

theorem moves_inBounds {p : PacketParser} {pos : Nat} {r : RecvSide n} :
    ∀ c ∈ r.moves p pos, c.InBounds := by
  have hle := r.used.offset_le
  unfold moves
  split
  · simp only [List.mem_singleton, forall_eq, Copy.InBounds]
    omega
  · nofun

end RecvSide

/-! ## The copies of a step -/

/-- The `memmove` of `OnSend`: the error exit comes before it. -/
def sendMoves {n : Nat} (buffer : Buffer n) (rs : List SendRes) : List Copy :=
  match onSend buffer rs with
  | some (ret, _, out) =>
    if ret ≠ .error ∧ out.length < buffer.offset then
      [⟨0, n, out.length, n, buffer.offset - out.length⟩]
    else []
  | none => []

theorem sendMoves_inBounds {n : Nat} {buffer : Buffer n} {rs : List SendRes} :
    ∀ c ∈ sendMoves buffer rs, c.InBounds := by
  have hle := buffer.offset_le
  unfold sendMoves
  split
  · split
    · simp only [List.mem_singleton, forall_eq, Copy.InBounds]
      omega
    · nofun
  · nofun

namespace World
variable {cfg : Config}

/-- What the two machines copy when they handle an event. -/
def eventCopies (e : NetEventType) (w : World cfg) : List Copy := w.send.copies e ++ w.recv.copies e

/-- The copies of a step, up to the first that leaves its buffer. -/
def copies (w : World cfg) : Label → List Copy
  | .send context =>
    if w.pipe then
      if w.send.used.exceeds context.length then w.eventCopies .error
      else ⟨w.send.used.offset, cfg.sendSize, 0, context.length, context.length⟩ ::
        match w.send.used.append? context with
        | some b => eventCopies .send { w with send.used := b }
        | none => []
    else []
  | .close => if w.pipe then w.eventCopies .close else []
  | .ret =>
    match w.stack with
    | .onRecv pos u _ :: _ => w.recv.moves cfg.parser (pos + u)
    | .onError :: _ => w.eventCopies .error
    | .onConnected :: _ | .onDisconnected :: _ | [] => []
  | .onIn => w.eventCopies .recv
  | .onOut => w.eventCopies .sendReady
  | .process =>
    match w.nextResult with
    | some e => w.eventCopies e
    | none => []
  | .runSend rs => sendMoves w.send.worked rs
  | .onError _ | .take | .runRecv _ | .push => []

/-- The sums of a step are `s32`s: that of `Send`, that of `BeginSend`, that of
`ProcessPacket`. -/
def SumsFit (w : World cfg) : Label → Prop
  | .send context => w.pipe = true → w.send.used.offset + context.length < s32Bound
  | .onOut => w.send.SumFits .sendReady
  | .process => ∀ e ∈ w.nextResult, w.send.SumFits e ∧ w.recv.SumFits e
  | _ => True

instance (w : World cfg) (l : Label) : Decidable (w.SumsFit l) :=
  match l with
  | .send _ => inferInstanceAs (Decidable (_ → _))
  | .onOut => inferInstanceAs (Decidable (w.send.SumFits _))
  | .process => inferInstanceAs (Decidable (∀ e ∈ w.nextResult, _))
  | .close | .ret | .onIn | .onError _ | .take | .runRecv _ | .runSend _ | .push => isTrue trivial

/-- The program can take the step: what it calls is called by something, and the assertion of
`OnSend` holds. -/
def Enabled (w : World cfg) : Label → Prop
  | .send context => context.length < s32Bound
  | .close => True
  | .ret => w.stack ≠ []
  | .onIn | .onOut | .onError _ => w.idle = true
  | .process => w.stack = [] ∧ w.nextResult ≠ none
  | .take => w.worker.take ≠ none
  | .runRecv _ => w.worker.executing = some (.request .recv)
  | .runSend _ => w.worker.executing = some (.request .send) ∧ w.send.worked.data ≠ []
  | .push => w.worker.pushResult ≠ none

theorem eventCopies_inBounds {e : NetEventType} {w : World cfg} :
    (∀ c ∈ w.eventCopies e, c.InBounds) ↔ w.send.SumFits e ∧ w.recv.SumFits e := by
  rw [eventCopies, List.forall_mem_append, SendSide.copies_inBounds cfg.send_lt,
    RecvSide.copies_inBounds cfg.recv_lt]

theorem onEvent_isSome {e : NetEventType} {w : World cfg} :
    (w.onEvent e).isSome = true ↔ w.send.SumFits e ∧ w.recv.SumFits e := by
  rw [← SendSide.onEvent_isSome cfg.send_lt, onEvent, sendMachine]
  cases hs : (w.log (.dispatch e)).send.onEvent e with
  | none =>
    have hs : w.send.onEvent e = none := hs
    simp [hs]
  | some o =>
    have hs : w.send.onEvent e = some o := hs
    have hrecv : ∀ v : World cfg, v.recv = w.recv →
        ((v.recvMachine e).isSome = true ↔ w.recv.SumFits e) := by
      intro v hv
      unfold recvMachine RecvSide.SumFits
      rw [hv]
      cases ha : w.recv.state.onEvent e with
      | stay | change | beginRecv => simp
      | processPacket =>
        simp only [Option.isSome_map]
        exact RecvSide.processPacket_isSome cfg.recv_lt
    simp only [hs, Option.map_some, Option.bind_some, Option.isSome_some, true_and]
    refine hrecv _ ?_
    split <;> rfl

end World

/-! ## Where the loop of ProcessPacket is -/

/-- While the session is in `OnRecv`, its packet lies in the using buffer. -/
def RecvView.Placed {n : Nat} (v : RecvView n) : Prop :=
  ∀ pos u again, .onRecv pos u again ∈ v.frames → pos + u ≤ v.side.used.offset

theorem RecvView.placed_runPacket {n : Nat} {p : PacketParser} {pos : Nat} {r : RecvSide n}
    {o : Parsing × RecvSide n} {v : RecvView n} (again : Bool) (hf : v.frames = [])
    (ho : r.Parses p pos o) : (v.runPacket again o).Placed := by
  intro pos' u' again' hmem
  cases ho with
  | rest | bad =>
    cases again <;>
      simp [runPacket, endPacket, beginRecv, changeRecvState, hf] at hmem
  | packet _ _ hl =>
    simp only [runPacket, List.mem_singleton, Frame.onRecv.injEq] at hmem
    obtain ⟨rfl, rfl, rfl⟩ := hmem
    exact hl

theorem RecvView.Placed.step {n : Nat} {p : PacketParser} {next : Option NetEventType}
    {l : Label} {v v' : RecvView n} (h : v.Placed) (hs : v.Step p next l v') : v'.Placed := by
  cases hs with
  | quiet => exact h
  | event hr hh =>
    obtain ⟨hside, hframes, _⟩ := hr.same
    cases hh with
    | stay | change | beginRecv =>
      intro pos u again hmem
      have hmem : Frame.onRecv pos u again ∈ v.frames := hframes ▸ hmem
      have := h pos u again hmem
      rwa [← hside] at this
    | @processPacket again o ha ho hi hf =>
      cases ho with
      | nothing | full =>
        intro pos u again' hmem
        cases again <;> simp [runPacket, endPacket, beginRecv, changeRecvState, log, hf] at hmem
      | parse => exact placed_runPacket again hf (RecvSide.parse_cases p 0 _)
  | resume => exact placed_runPacket _ rfl (RecvSide.parse_cases p _ _)
  | run => exact h

/-- The loop of `ProcessPacket` never is behind the bytes of the using buffer. -/
theorem Reachable.placed {cfg : Config} {w : World cfg} (h : Reachable w) {pos u : Nat}
    {again : Bool} (hf : .onRecv pos u again ∈ w.stack) : pos + u ≤ w.recv.used.offset := by
  have hplaced : w.recvView.Placed := h.invariant_with
    (I := fun w => w.recvView.Placed) (J := Accounts false false)
    (fun _ hr => Reachable.accounts hr)
    (fun _ _ _ hmem => by cases List.mem_singleton.mp (List.mem_filter.mp hmem).1)
    (fun _ _ _ _ hacc ih hs => ih.step (hacc.recvView_step hs))
  exact hplaced pos u again (List.mem_filter.mpr ⟨hf, rfl⟩)

namespace World
variable {cfg : Config}

/-- `Send` finds the working buffer empty, where it goes on to `BeginSend`. -/
theorem send_sumFits {w : World cfg} (h : Reachable w) {b : Buffer cfg.sendSize} :
    SendSide.SumFits .send { w.send with used := b } := by
  have hb := b.offset_le
  have hn := cfg.send_lt
  unfold SendSide.SumFits
  split
  · next t ht =>
    have hrest : w.send.state = .sendNone := by
      rcases SendState.beginSend_worked ht with hs | he | ⟨_, he⟩ | ⟨_, he⟩ | ⟨_, he⟩
      · exact hs
      · cases he
      · exact absurd rfl he
      · cases he
      · cases he
    have hempty : w.send.worked.offset = 0 := Buffer.offset_eq_zero.mpr (h.awake.rest hrest)
    simp only [hempty]
    omega
  · trivial
  · trivial

/-- The other events of the main thread send nothing and process nothing. -/
theorem shuts_sumFits (w : World cfg) {e : NetEventType}
    (he : e = .close ∨ e = .error ∨ e = .recv) :
    w.send.SumFits e ∧ w.recv.SumFits e := by
  constructor
  · refine SendSide.sumFits_of_ne fun t ht => ?_
    rcases he with rfl | rfl | rfl <;> cases hs : w.send.state <;> rw [hs] at ht <;> cases ht
  · refine RecvSide.sumFits_of_ne ?_
    rcases he with rfl | rfl | rfl <;> nofun

/-- A step copies inside its buffers exactly where its sums are `s32`s. -/
theorem copies_inBounds {w : World cfg} (h : Reachable w) {l : Label} (hl : w.Enabled l) :
    (∀ c ∈ w.copies l, c.InBounds) ↔ w.SumsFit l := by
  have closes : ∀ {e}, (e = .close ∨ e = .error ∨ e = .recv) →
      ∀ c ∈ w.eventCopies e, c.InBounds :=
    fun he => eventCopies_inBounds.mpr (w.shuts_sumFits he)
  cases l with
  | send context =>
    have hcheck := Buffer.check_iff (b := w.send.used) cfg.send_lt hl
    by_cases hp : w.pipe = true
    · simp only [copies, SumsFit, hp, if_true, forall_const]
      cases hx : w.send.used.exceeds context.length with
      | true => exact iff_of_true (closes (.inr (.inl rfl))) (hcheck.mp (by simp [hx]))
      | false =>
        simp only [Bool.false_eq_true, if_false, List.forall_mem_cons]
        constructor
        · exact fun hc => hcheck.mp fun _ => hc.1.1
        · intro hsum
          have hfit := hcheck.mpr hsum hx
          obtain ⟨b, hb⟩ := Option.isSome_iff_exists.mp (Buffer.append?_isSome.mpr hfit)
          rw [hb]
          exact ⟨⟨hfit, (Nat.zero_add _).le⟩, eventCopies_inBounds.mpr
            ⟨send_sumFits h, RecvSide.sumFits_of_ne (by simp)⟩⟩
    · simp [copies, SumsFit, hp]
  | close =>
    refine iff_of_true ?_ trivial
    simp only [copies]
    split
    · exact closes (.inl rfl)
    · nofun
  | ret =>
    refine iff_of_true ?_ trivial
    simp only [copies]
    split
    · exact RecvSide.moves_inBounds
    · exact closes (.inr (.inl rfl))
    · nofun
    · nofun
    · nofun
  | onIn => exact iff_of_true (closes (.inr (.inr rfl))) trivial
  | onOut =>
    rw [copies, eventCopies_inBounds, SumsFit]
    exact and_iff_left (RecvSide.sumFits_of_ne (by simp))
  | process =>
    obtain ⟨e, he⟩ := Option.ne_none_iff_exists'.mp hl.2
    simp only [copies, SumsFit, he, Option.mem_some_iff, forall_eq']
    exact eventCopies_inBounds
  | runSend rs => exact iff_of_true sendMoves_inBounds trivial
  | onError | take | runRecv | push => exact iff_of_true (by simp [copies]) trivial

/-- A step has an outcome exactly where its sums are `s32`s. -/
theorem step_isSome {w : World cfg} (h : Reachable w) {l : Label} (hl : w.Enabled l) :
    (w.step l).isSome = true ↔ w.SumsFit l := by
  cases l with
  | send context =>
    have hcheck := Buffer.check_iff (b := w.send.used) cfg.send_lt hl
    have hl : context.length < s32Bound := hl
    by_cases hp : w.pipe = true
    · simp only [step, SumsFit, hp, if_true, hl, forall_const, sendCall]
      cases hx : w.send.used.exceeds context.length with
      | true =>
        have hevent := (w.log (.send context false)).shuts_sumFits (e := .error) (.inr (.inl rfl))
        exact iff_of_true (onEvent_isSome.mpr hevent) (hcheck.mp (by simp [hx]))
      | false =>
        rw [← hcheck]
        simp only [Bool.false_eq_true, if_false, hx, forall_const, ← Buffer.append?_isSome]
        cases hb : w.send.used.append? context with
        | none => simp
        | some b =>
          refine iff_of_true ?_ rfl
          exact onEvent_isSome.mpr ⟨send_sumFits h, RecvSide.sumFits_of_ne (by simp)⟩
    · simp [step, SumsFit, hp]
  | close =>
    refine iff_of_true ?_ trivial
    simp only [step]
    split
    · exact onEvent_isSome.mpr ((w.log .close).shuts_sumFits (.inl rfl))
    · rfl
  | ret =>
    refine iff_of_true ?_ trivial
    simp only [step]
    split
    · next hs => exact absurd hs hl
    · next f fs _ =>
      cases f with
      | onError =>
        exact onEvent_isSome.mpr (shuts_sumFits { w with stack := fs } (.inr (.inl rfl)))
      | onConnected | onRecv | onDisconnected => rfl
  | onIn =>
    have hl : w.idle = true := hl
    simp only [step, hl, if_true]
    exact iff_of_true (onEvent_isSome.mpr (w.shuts_sumFits (.inr (.inr rfl)))) trivial
  | onOut =>
    have hl : w.idle = true := hl
    simp only [step, hl, if_true, onEvent_isSome]
    exact and_iff_left (RecvSide.sumFits_of_ne (by simp))
  | onError =>
    have hl : w.idle = true := hl
    simp [step, hl, SumsFit]
  | process =>
    obtain ⟨hs, hn⟩ := hl
    have hs : w.stack.isEmpty = true := by rw [hs]; rfl
    cases hr : w.worker.readResult with
    | none =>
      rw [nextResult, hr] at hn
      exact absurd rfl hn
    | some o =>
      have he : w.nextResult = some o.1 := by rw [nextResult, hr]; rfl
      simp only [step, hs, if_true, hr, Option.bind_some, SumsFit, he, Option.mem_some_iff,
        forall_eq']
      exact onEvent_isSome (w := { w with worker := o.2 })
  | take =>
    refine iff_of_true ?_ trivial
    simp only [step, Option.isSome_map]
    exact Option.isSome_iff_ne_none.mpr hl
  | push =>
    refine iff_of_true ?_ trivial
    simp only [step, Option.isSome_map]
    exact Option.isSome_iff_ne_none.mpr hl
  | runRecv rs =>
    have hl : w.worker.executing = some (.request .recv) := hl
    refine iff_of_true ?_ trivial
    simp only [step, hl, Option.isSome_map]
    exact recvEvent_isSome _ rs
  | runSend rs =>
    obtain ⟨hx, hworked⟩ := hl
    refine iff_of_true ?_ trivial
    obtain ⟨⟨ret, b, bytes⟩, ho⟩ :=
      Option.isSome_iff_exists.mp ((onSend_isSome rs).mpr hworked)
    simp only [step, hx, ho, Option.bind_some, Option.isSome_map]
    exact sendEvent_isSome ho

/-- `Send` appends the whole context and raises `NEVT_SEND`, or it leaves the buffers as they
are and raises `NEVT_ERROR`. -/
def AppendsOrRefuses (context : List UInt8) (w : World cfg) : Prop :=
  (∃ b : Buffer cfg.sendSize, b.data = w.send.used.data ++ context ∧
    w.sendCall context =
      onEvent .send { w with send.used := b, trace := w.trace ++ [.send context true] }) ∨
  cfg.sendSize < w.send.used.offset + context.length ∧
    w.sendCall context = (w.log (.send context false)).onEvent .error

theorem appendsOrRefuses_iff {w : World cfg} {context : List UInt8}
    (hl : context.length < s32Bound) :
    w.AppendsOrRefuses context ↔ w.send.used.offset + context.length < s32Bound := by
  have hcheck := Buffer.check_iff (b := w.send.used) cfg.send_lt hl
  cases hx : w.send.used.exceeds context.length with
  | true =>
    have hsum := hcheck.mp (by simp [hx])
    refine iff_of_true (.inr ⟨(Buffer.exceeds_iff hsum).mp hx, ?_⟩) hsum
    rw [sendCall, if_pos hx]
  | false =>
    rw [← hcheck]
    constructor
    · rintro (⟨b, hb, _⟩ | ⟨_, hcall⟩) -
      · have hle := b.le_size
        rw [hb, List.length_append] at hle
        exact hle
      · have hsome := onEvent_isSome.mpr
          ((w.log (.send context false)).shuts_sumFits (e := .error) (.inr (.inl rfl)))
        rw [← hcall, sendCall, if_neg (by simp [hx])] at hsome
        cases happ : w.send.used.append? context with
        | none => simp [happ] at hsome
        | some b => exact Buffer.append?_isSome.mp (by rw [happ]; rfl)
    · intro hfit
      obtain ⟨b, hb⟩ := Option.isSome_iff_exists.mp (Buffer.append?_isSome.mpr (hfit hx))
      refine .inl ⟨b, Buffer.append?_eq_some.mp hb, ?_⟩
      rw [sendCall, if_neg (by simp [hx]), hb, Option.bind_some]

end World

/-- **Bounds.** After every run whose sums were `s32`s the offsets are within the buffers, and
so is the loop of `ProcessPacket`. From there a step copies inside its buffers, and a `Send` is
all or nothing, exactly where its own sums are `s32`s. -/
theorem copies_in_bounds {cfg : Config} {w : World cfg}
    (h : (system cfg).Run World.SumsFit w) :
    (w.send.worked.offset ≤ cfg.sendSize ∧ w.send.used.offset ≤ cfg.sendSize ∧
      w.recv.worked.offset ≤ cfg.recvSize ∧ w.recv.used.offset ≤ cfg.recvSize ∧
      ∀ pos u again, .onRecv pos u again ∈ w.stack → pos + u ≤ w.recv.used.offset) ∧
    (∀ l, w.Enabled l → ((∀ c ∈ w.copies l, c.InBounds) ↔ w.SumsFit l) ∧
      ((w.step l).isSome = true ↔ w.SumsFit l)) ∧
    (∀ context, w.Enabled (.send context) → w.pipe = true →
      (w.AppendsOrRefuses context ↔ w.SumsFit (.send context))) := by
  have hreach := h.reachable
  refine ⟨⟨w.send.worked.offset_le, w.send.used.offset_le, w.recv.worked.offset_le,
    w.recv.used.offset_le, fun _ _ _ => Reachable.placed hreach⟩, ?_, ?_⟩
  · intro l hl
    exact ⟨World.copies_inBounds hreach hl, World.step_isSome hreach hl⟩
  · intro context hl hp
    rw [World.appendsOrRefuses_iff hl]
    exact ⟨fun hsum _ => hsum, fun hsum => hsum hp⟩

/-- A buffer that holds a byte while another is sent. -/
theorem copies_in_bounds_small : ∃ w : World .small, w.send.used.data = [2] ∧
    (w.step (.send [3, 4, 5])).isSome = true ∧ (w.step (.send [3, 4, 5, 6])).isSome = true ∧
    w.AppendsOrRefuses [3, 4, 5, 6] := by
  obtain ⟨w, h, hw⟩ := (system .small).run_of_exec (P := World.SumsFit)
    [.ret, .send [1], .send [2]]
    (p := fun w => w.send.used.data == [2] && w.pipe) (by decide)
  simp only [Bool.and_eq_true, beq_iff_eq] at hw
  obtain ⟨_, hsteps, hsend⟩ := copies_in_bounds h
  have hfits : ∀ context : List UInt8, context.length ≤ 4 → w.Enabled (.send context) ∧
      w.SumsFit (.send context) := by
    intro context hlen
    have hoff : w.send.used.offset = 1 := by rw [Buffer.offset, hw.1]; rfl
    have hbound : 5 < s32Bound := by decide
    exact ⟨show context.length < s32Bound by omega, fun _ => by omega⟩
  obtain ⟨hthree, hfits₃⟩ := hfits [3, 4, 5] (by decide)
  obtain ⟨hfour, hfits₄⟩ := hfits [3, 4, 5, 6] (by decide)
  exact ⟨w, hw.1, (hsteps _ hthree).2.mpr hfits₃, (hsteps _ hfour).2.mpr hfits₄,
    (hsend _ hfour hw.2).mpr hfits₄⟩

/-- A `Send` of `INT32_MAX` bytes behind one byte: the sum wraps below zero, the check lets the
copy pass, and it runs past the end of a buffer of four bytes. -/
theorem longest_send_overruns : ∃ w : World .small, Reachable w ∧ w.pipe = true ∧
    w.send.used.exceeds (List.replicate (s32Bound - 1) (0 : UInt8)).length = false ∧
    (¬ ∀ c ∈ w.copies (.send (List.replicate (s32Bound - 1) 0)), c.InBounds) ∧
    w.step (.send (List.replicate (s32Bound - 1) 0)) = none := by
  obtain ⟨w, h, hw⟩ := (system .small).run_of_exec (P := fun _ _ => True)
    [.ret, .send [1], .send [2]]
    (p := fun w => w.send.used.data == [2] && w.pipe) (by decide)
  simp only [Bool.and_eq_true, beq_iff_eq] at hw
  generalize hcontext : List.replicate (s32Bound - 1) (0 : UInt8) = context
  have hlen : context.length = s32Bound - 1 := by rw [← hcontext, List.length_replicate]
  have hbound : 0 < s32Bound := by decide
  have hl : w.Enabled (.send context) := show context.length < s32Bound by omega
  have hoff : w.send.used.offset = 1 := by rw [Buffer.offset, hw.1]; rfl
  have hnot : ¬ w.SumsFit (.send context) := by
    intro hsum
    have := hsum hw.2
    omega
  refine ⟨w, h, hw.2, ?_, ?_, ?_⟩
  · rw [hlen, Buffer.exceeds, hoff]
    decide
  · exact fun hc => hnot ((World.copies_inBounds h hl).mp hc)
  · by_contra hne
    exact hnot ((World.step_isSome h hl).mp (Option.isSome_iff_ne_none.mpr hne))

end HyperNet.Net
