import HyperNet.Logic.Chunking
import HyperNet.Net.Link

/-! # From Send on one end to OnRecv on the other

Whatever fails, and wherever the workers and sessions are, what the session of one end has been
handed is the beginning of what `Send` of the other end has accepted, cut into packets as the
parser says. Where the stream consists of packets that the parser recognises, these are the
packets. -/
namespace HyperNet.Net
open HyperNet.Api HyperNet.Public HyperNet.Core.Framing HyperNet.Core.History
open HyperNet.Core.Transition

/-! ## The wire carries a beginning of what was accepted -/

theorem accepted_append (tr ts : List Obs) : accepted (tr ++ ts) = accepted tr ++ accepted ts :=
  List.flatMap_append

namespace SendView
variable {n : Nat} {v v' v₀ : SendView n} {e : NetEventType} {posted : Bool} {s : SendSide n}
  {next : Option NetEventType} {l : Label}

/-- After a failed `OnSend` there is no other one. -/
def Failed (v : SendView n) : Prop :=
  v.trace.any Obs.sendFails = true →
    v.items = [.result .sendError] ∨ v.items = [] ∧ v.side.state = .sendClose

theorem Failed.event (h : v.Failed) (hc : v.items.length = v.side.state.busy.toNat)
    (hr : v.Raises next l e v₀) (hh : v₀.side.Handles e posted s)
    (hi : posted = true → v₀.items = []) : (v₀.handled e posted s).Failed := by
  intro hf
  rw [(wire_handled posted s hr).2.2] at hf
  rcases h hf with hitem | ⟨hitem, hclose⟩
  · cases he : e.isSendResult with
    | false =>
      have hv := (hr.items_eq he).trans hitem
      have hpost : posted = false := by
        cases posted with
        | false => rfl
        | true => cases hv.symm.trans (hi rfl)
      rw [hpost]
      exact .inl hv
    | true =>
      obtain ⟨hres, hbusy⟩ := hr.busy hc he
      rw [hitem] at hres
      cases hres
      have ht := SendState.onEvent_sendError hbusy
      have hv : v₀.items = [] := by
        cases hr with
        | result => rfl
        | other hn => cases hn
      cases hh with
      | change ha =>
        cases ht.symm.trans ha
        exact .inr ⟨hv, rfl⟩
      | stay ha | full ha | beginSend ha => cases ht.symm.trans ha
  · have hv : v₀.items = [] := by
      cases hr with
      | result => rfl
      | accept | reject | other => exact hitem
    rw [← hr.state] at hclose
    cases hh with
    | stay => exact .inr ⟨hv, hclose⟩
    | change ha | full ha | beginSend ha => rw [hclose] at ha; cases ha

/-- What `OnSend` has handed to the kernel, whether it has failed or not. -/
structure Sent (v : SendView n) : Prop where
  sound : wire v.trace <+: accepted v.trace
  failed : v.Failed

theorem Sent.step (h : v.Sent) (hexact : v.Exact)
    (hc : v.items.length = v.side.state.busy.toNat) (hs : v.Step next l v') : v'.Sent := by
  cases hs with
  | quiet => exact h
  | @event _ e v₀ posted s hr hh hi =>
    refine ⟨?_, h.failed.event hc hr hh hi⟩
    have hgrows : accepted v.trace <+: accepted (v₀.handled e posted s).trace := by
      rw [SendView.handled, List.append_assoc, accepted_append]
      rcases hr.trace with ht | ⟨c, ok, ht⟩
      · rw [ht]
        exact List.prefix_append _ _
      · rw [ht, accepted_append, List.append_assoc]
        exact List.prefix_append _ _
    rw [(wire_handled posted s hr).1]
    exact h.sound.trans hgrows
  | @run rs ret b out e hi ho he =>
    have hnf : v.trace.any Obs.sendFails = false := by
      cases hf : v.trace.any Obs.sendFails with
      | false => rfl
      | true => rcases h.failed hf with hv | ⟨hv, _⟩ <;> cases hi.symm.trans hv
    refine ⟨?_, ?_⟩
    · obtain ⟨_, _, ⟨left, hout⟩, _⟩ := onSend_spec ho
      have hv := hexact hnf
      rw [← hout] at hv
      rw [wire_snoc, accepted_append, ← hv]
      refine ⟨left ++ v.side.used.data, ?_⟩
      simp [accepted, Obs.accepted, Obs.wire]
    · intro hf
      have hret : ret = .error := by simpa [hnf, Obs.sendFails] using hf
      subst hret
      cases he
      exact .inl rfl

end SendView

theorem Reachable.sendView_sent {cfg : Config} {w : World cfg} (h : Reachable w) :
    w.sendView.Sent :=
  h.invariant_with (I := fun w => w.sendView.Sent) (J := Reachable)
    (fun _ hr => hr) ⟨List.prefix_rfl, by simp [SendView.Failed, World.sendView, World.init,
      system, Obs.ofSend]⟩
    (fun _ _ _ _ hr ih hs => ih.step hr.exact hr.accounts.send (hr.accounts.sendView_step hs))

/-- Whatever fails and whatever `Send` refuses, the wire carries what it has accepted. -/
theorem Reachable.sent {cfg : Config} {w : World cfg} (h : Reachable w) :
    wire w.trace <+: accepted w.trace := by
  have hsound := h.sendView_sent.sound
  rwa [World.sendView, wire_filter, accepted_filter] at hsound

/-! ## The packets of a stream -/

/-- The packets that the session is handed. -/
def packets (tr : List Obs) : List (List UInt8) :=
  tr.filterMap fun
    | .onRecv packet => some packet
    | _ => none

theorem packets_append (tr ts : List Obs) : packets (tr ++ ts) = packets tr ++ packets ts :=
  List.filterMap_append

theorem flatten_packets (tr : List Obs) : (packets tr).flatten = delivered tr := by
  induction tr with
  | nil => rfl
  | cons o tr ih =>
    have hsplit : packets (o :: tr) = packets [o] ++ packets tr := packets_append [o] tr
    rw [hsplit, List.flatten_append, ih]
    cases o <;> simp [packets, delivered, Obs.delivered]

/-- Each packet has been found by the parser at the beginning of what it was shown of the stream
behind the packets before it. -/
def Segmented (p : PacketParser) : List (List UInt8) → List UInt8 → Prop
  | [], _ => True
  | f :: fs, stream =>
    (f ≠ [] ∧ ∃ shown, f <+: shown ∧ shown <+: stream ∧ p.parsePacket shown = f.length) ∧
      Segmented p fs (stream.drop f.length)

/-- A packet that the parser recognises is complete. -/
theorem Carries.complete {p : PacketParser} {frames : List (List UInt8)} (hc : Carries p frames)
    {g : List UInt8} (hg : g ∈ frames) (more : List UInt8) : p.incomplete (g ++ more) = false := by
  have hpos := List.length_pos_iff.mpr (hc.ne_nil g hg)
  have hne : g ++ more ≠ [] := fun hnil => hc.ne_nil g hg (List.append_eq_nil_iff.mp hnil).1
  rw [PacketParser.incomplete, hc.packet g hg more, beq_eq_false_iff_ne.mpr hne, Bool.false_or,
    beq_eq_false_iff_ne]
  omega

namespace Segmented
variable {p : PacketParser} {fs : List (List UInt8)} {f stream stream' : List UInt8}

theorem mono (h : Segmented p fs stream) (hs : stream <+: stream') : Segmented p fs stream' := by
  induction fs generalizing stream stream' with
  | nil => trivial
  | cons f fs ih =>
    obtain ⟨⟨hne, shown, hf, hshown, hp⟩, hrest⟩ := h
    exact ⟨⟨hne, shown, hf, hshown.trans hs, hp⟩, ih hrest (hs.drop f.length)⟩

theorem snoc (h : Segmented p fs stream) (hne : f ≠ []) {shown : List UInt8} (hf : f <+: shown)
    (hs : shown <+: stream.drop fs.flatten.length) (hp : p.parsePacket shown = f.length) :
    Segmented p (fs ++ [f]) stream := by
  induction fs generalizing stream with
  | nil => exact ⟨⟨hne, shown, hf, hs, hp⟩, trivial⟩
  | cons g fs ih =>
    refine ⟨h.1, ih h.2 ?_⟩
    rwa [List.drop_drop, ← List.length_append, ← List.flatten_cons]

/-- The packets are a beginning of the stream. -/
theorem flatten_isPrefix (h : Segmented p fs stream) : fs.flatten <+: stream := by
  induction fs generalizing stream with
  | nil => exact List.nil_prefix
  | cons f fs ih =>
    obtain ⟨⟨_, shown, hf, hshown, _⟩, hrest⟩ := h
    obtain ⟨rest, hstream⟩ := hf.trans hshown
    have htail := ih hrest
    rw [← hstream, List.drop_left] at htail
    rw [← hstream, List.flatten_cons]
    exact (List.prefix_append_right_inj f).mpr htail

/-- A packet found where one that the parser recognises begins is that one. -/
theorem first_eq {frames : List (List UInt8)} (hc : Carries p frames) {g shown : List UInt8}
    (hg : g ∈ frames) (hne : f ≠ []) (hf : f <+: shown) (hp : p.parsePacket shown = f.length)
    (hs : shown <+: stream) (hgs : g <+: stream) : f = g := by
  have hpos : 0 < f.length := List.length_pos_iff.mpr hne
  have hlen := hf.length_le
  by_cases hlong : g.length ≤ shown.length
  · obtain ⟨rest, rfl⟩ := List.prefix_of_prefix_length_le hgs hs hlong
    rw [hc.packet g hg rest] at hp
    exact (List.prefix_of_prefix_length_le hf (List.prefix_append g rest)
      (by omega)).eq_of_length (by omega)
  · have htake := List.prefix_iff_eq_take.mp (List.prefix_of_prefix_length_le hs hgs (by omega))
    rw [htake, hc.partial' g hg _ (by omega) (by omega)] at hp
    omega

/-- In a stream of packets that the parser recognises, these are the packets that it finds. -/
theorem isPrefix {frames : List (List UInt8)} (h : Segmented p fs stream)
    (hc : Carries p frames) (hs : stream <+: frames.flatten) : fs <+: frames := by
  induction fs generalizing stream frames with
  | nil => exact List.nil_prefix
  | cons f fs ih =>
    obtain ⟨⟨hne, shown, hf, hshown, hp⟩, hrest⟩ := h
    have hcome := hshown.trans hs
    cases frames with
    | nil =>
      rw [List.flatten_nil, List.prefix_nil] at hcome
      rw [hcome, List.prefix_nil] at hf
      exact absurd hf hne
    | cons g frames =>
      obtain rfl : f = g := first_eq hc List.mem_cons_self hne hf hp hcome (List.prefix_append g _)
      have htail := hs.drop f.length
      rw [List.flatten_cons, List.drop_left] at htail
      exact List.cons_prefix_cons.mpr
        ⟨rfl, ih hrest (hc.mono fun g hg => List.mem_cons_of_mem f hg) htail⟩

/-- Packets that the parser recognises at the beginning of the stream have been found, where
nothing that is left of the stream is one. -/
theorem contains {frames : List (List UInt8)} {rest : List UInt8} (h : Segmented p fs stream)
    (hc : Carries p frames) (hs : frames.flatten <+: stream) (hstream : fs.flatten ++ rest = stream)
    (hi : p.incomplete rest = true) : frames <+: fs := by
  induction frames generalizing fs stream with
  | nil => exact List.nil_prefix
  | cons g frames ih =>
    have hgs : g <+: stream := (List.prefix_append g _).trans hs
    cases fs with
    | nil =>
      rw [← hstream] at hgs
      obtain ⟨more, hmore⟩ := hgs
      have hmore : g ++ more = rest := hmore
      rw [← hmore, hc.complete List.mem_cons_self more] at hi
      cases hi
    | cons f fs =>
      obtain ⟨⟨hne, shown, hf, hshown, hp⟩, hrest⟩ := h
      obtain rfl : f = g := first_eq hc List.mem_cons_self hne hf hp hshown hgs
      have htail := hs.drop f.length
      rw [List.flatten_cons, List.drop_left] at htail
      refine List.cons_prefix_cons.mpr
        ⟨rfl, ih hrest (hc.mono fun g hg => List.mem_cons_of_mem f hg) htail ?_⟩
      rw [← hstream, List.flatten_cons, List.append_assoc, List.drop_left]

end Segmented

/-! ## What has been handed on is a beginning of what was received -/

theorem packets_filter (tr : List Obs) : packets (tr.filter Obs.ofRecv) = packets tr := by
  rw [packets, List.filterMap_filter]
  refine List.filterMap_congr fun o _ => ?_
  cases o <;> rfl

theorem received_mono {tr tr' : List Obs} (h : tr <+: tr') : received tr <+: received tr' :=
  h.flatMap _

namespace RecvView
variable {n : Nat} {p : PacketParser} {v v' v₀ : RecvView n} {e : NetEventType}
  {next : Option NetEventType} {l : Label}

/-- After an `OnRecv` that returned something else than `WRET_DONE` there is no other one. -/
def Ended (v : RecvView n) : Prop :=
  v.trace.any Obs.recvEnds = true →
    v.items = [.result .recvError] ∨ v.items = [.result .recvClose] ∨
      v.items = [] ∧ v.side.state = .recvClose

theorem Ended.event (h : v.Ended) (hw : v.Waits) (hr : v.Raises next l e v₀)
    (hh : v₀.Handles p e v') : v'.Ended := by
  intro he
  rw [(handles_trace hr hh).2.2.1] at he
  cases hr with
  | result hres hn hi hf =>
    have hbusy := hw (.inl (by rw [hi]; exact List.cons_ne_nil _ _))
    have hchange : v.side.state.onEvent e = .change .recvClose := by
      rcases h he with hv | hv | ⟨hv, _⟩
      · cases hi.symm.trans hv
        exact RecvState.onEvent_ends hbusy (.inl rfl)
      · cases hi.symm.trans hv
        exact RecvState.onEvent_ends hbusy (.inr rfl)
      · cases hi.symm.trans hv
    cases hh with
    | change ha =>
      cases hchange.symm.trans ha
      exact .inr (.inr ⟨rfl, rfl⟩)
    | stay ha | beginRecv ha | processPacket ha => cases hchange.symm.trans ha
  | other hres =>
    cases hh with
    | stay => exact h he
    | change ha =>
      rcases h he with hv | hv | ⟨_, hs⟩
      · exact .inl hv
      · exact .inr (.inl hv)
      · rw [hs] at ha
        cases ha
    | beginRecv ha hi =>
      rcases h he with hv | hv | ⟨_, hs⟩
      · cases hi.symm.trans hv
      · cases hi.symm.trans hv
      · rw [hs] at ha
        cases ha
    | processPacket ha =>
      rw [(RecvState.processPacket_cases ha).1] at hres
      cases hres

/-- While the session is in `OnRecv`, or the worker is about to run it, nothing has ended. -/
theorem Ended.running (h : v.Ended) (hw : v.Waits)
    (hi : v.frames ≠ [] ∧ v.items = [] ∨ v.items = [.request .recv]) :
    v.trace.any Obs.recvEnds = false := by
  cases he : v.trace.any Obs.recvEnds with
  | false => rfl
  | true =>
    rcases hi with ⟨hf, hi⟩ | hi
    · rcases h he with hv | hv | ⟨_, hs⟩
      · cases hi.symm.trans hv
      · cases hi.symm.trans hv
      · have := hw (.inr hf)
        rw [hs] at this
        cases this
    · rcases h he with hv | hv | ⟨hv, _⟩ <;> cases hi.symm.trans hv

/-- What `OnRecv` has published of what it got. -/
structure Got (v : RecvView n) : Prop where
  sound : published v.trace <+: received v.trace
  ended : v.Ended

theorem Got.step (h : v.Got) (hw : v.Waits) (hs : v.Step p next l v') : v'.Got := by
  cases hs with
  | quiet => exact h
  | event hr hh =>
    obtain ⟨hgrows, hpub, _⟩ := handles_trace hr hh
    exact ⟨by rw [hpub]; exact h.sound.trans (received_mono hgrows), h.ended.event hw hr hh⟩
  | @resume pos u again hf hi =>
    have hrun := h.ended.running hw (.inl ⟨by rw [hf]; exact List.cons_ne_nil _ _, hi⟩)
    obtain ⟨hrecv, hpub, _, hends, _⟩ :=
      runPacket_trace again (v.side.parse p (pos + u)) { v with frames := [] }
    refine ⟨by rw [hpub, hrecv]; exact h.sound, fun he => ?_⟩
    rw [hends] at he
    cases hrun.symm.trans he
  | @run rs ret b bytes e hi hf hempty ho he =>
    have hrun := h.ended.running hw (.inr hi)
    have hsame := received_eq_published hrun
    refine ⟨?_, fun hends => ?_⟩
    · simp only [received, published, List.flatMap_append, List.flatMap_singleton] at hsame ⊢
      rw [← hsame, List.prefix_append_right_inj]
      cases ret <;> first | exact List.prefix_rfl | exact List.nil_prefix
    · have hne : ret ≠ .done := by simpa [hrun, Obs.recvEnds] using hends
      cases ret with
      | done => exact absurd rfl hne
      | error =>
        cases he
        exact .inl rfl
      | close =>
        cases he
        exact .inr (.inl rfl)
      | pending => cases he

/-- What the session has been handed of what `ProcessPacket` has taken. After a packet that is
none there is no other one. -/
structure Handed (p : PacketParser) (v : RecvView n) : Prop where
  segmented : Segmented p (packets v.trace) (processed v.trace)
  stopped : v.trace.any Obs.rejected = true → v.side.state = .recvClose ∧ v.frames = []

/-- One turn of the loop of `ProcessPacket`, from where all bytes before `pos` are handed on. -/
theorem Handed.runPacket {pos : Nat} {r : RecvSide n} {o : Parsing × RecvSide n} (again : Bool)
    (hseg : Segmented p (packets v.trace) (processed v.trace)) (hf : v.frames = [])
    (hn : v.trace.any Obs.rejected = false) (ho : r.Parses p pos o)
    (hd : delivered v.trace ++ r.used.data.drop pos = processed v.trace) :
    (v.runPacket again o).Handed p := by
  have hproc := (runPacket_trace again o v).2.2.1
  cases ho with
  | rest =>
    have hsame : packets (v.runPacket again (.done true, { r with used := r.used.drop pos })).trace =
        packets v.trace := by
      cases again <;>
        simp [RecvView.runPacket, endPacket, beginRecv, changeRecvState, packets]
    refine ⟨by rw [hsame, hproc]; exact hseg, fun hr => ?_⟩
    cases again <;>
      simp [RecvView.runPacket, endPacket, beginRecv, changeRecvState, hn, Obs.rejected] at hr
  | @packet u hu hp hl =>
    have hlen : ((r.used.data.drop pos).take u).length = u := by
      simp only [List.length_take, List.length_drop]
      omega
    have hshown : r.used.data.drop pos = (processed v.trace).drop (packets v.trace).flatten.length := by
      rw [← hd, flatten_packets, List.drop_left]
    refine ⟨?_, fun hr => ?_⟩
    · have hnext : packets (v.runPacket again (.onRecv pos u, r)).trace =
          packets v.trace ++ [(r.used.data.drop pos).take u] := packets_append _ _
      rw [hproc, hnext]
      exact hseg.snoc (List.length_pos_iff.mp (by omega)) (List.take_prefix u _)
        (by rw [← hshown]) (by rw [hlen]; exact hp)
    · simp [RecvView.runPacket, hn, Obs.rejected] at hr
  | bad =>
    refine ⟨?_, fun _ => ⟨rfl, hf⟩⟩
    rw [hproc]
    simpa [RecvView.runPacket, endPacket, changeRecvState, packets] using hseg

theorem Handed.event (h : v.Handed p) (hb : v.Reassembled p) (hr : v.Raises next l e v₀)
    (hh : v₀.Handles p e v') : v'.Handed p := by
  obtain ⟨hside, hframes, htrace⟩ := hr.same
  obtain ⟨hseg, hstop⟩ := h
  have hbytes := hb.parsed
  rw [pending, ← hside, ← hframes, ← htrace] at hbytes
  rw [← htrace] at hseg
  rw [← htrace, ← hside, ← hframes] at hstop
  cases hh with
  | stay =>
    exact ⟨by simpa [log, packets, processed, Obs.processed] using hseg,
      fun hn => hstop (by simpa [log, Obs.rejected] using hn)⟩
  | change ha =>
    refine ⟨by simpa [log, changeRecvState, packets, processed, Obs.processed] using hseg,
      fun hn => ?_⟩
    have := (hstop (by simpa [log, changeRecvState, Obs.rejected] using hn)).1
    rw [this] at ha
    cases ha
  | beginRecv ha =>
    refine ⟨?_, fun hn => ?_⟩
    · simpa [log, beginRecv, changeRecvState, packets, processed, Obs.processed] using hseg
    · have := (hstop (by simpa [log, beginRecv, changeRecvState, Obs.rejected] using hn)).1
      rw [this] at ha
      cases ha
  | @processPacket again o ha ho hi hf =>
    have hnr : v₀.trace.any Obs.rejected = false := by
      cases hrej : v₀.trace.any Obs.rejected with
      | false => rfl
      | true =>
        rw [(hstop hrej).1] at ha
        cases ha
    obtain ⟨hpending, hrest⟩ := hbytes hnr
    rw [hf] at hpending
    obtain ⟨hdel, hproc⟩ := processing e v₀.side.taken v₀
    have hpackets : packets ((v₀.log (.dispatch e)).log (.processPacket 0 v₀.side.taken)).trace =
        packets v₀.trace := by simp [log, packets]
    have hseg' : Segmented p
        (packets ((v₀.log (.dispatch e)).log (.processPacket 0 v₀.side.taken)).trace)
        (processed ((v₀.log (.dispatch e)).log (.processPacket 0 v₀.side.taken)).trace) := by
      rw [hpackets, hproc]
      exact hseg.mono (List.prefix_append _ _)
    have hnr' : ((v₀.log (.dispatch e)).log (.processPacket 0 v₀.side.taken)).trace.any
        Obs.rejected = false := by simpa [log, Obs.rejected] using hnr
    cases ho with
    | nothing hw =>
      have hp : v₀.side.Parses p 0 (.done true, { v₀.side with used := v₀.side.used.drop 0 }) :=
        .rest (by rw [List.drop_zero]; exact hrest hf)
      rw [show v₀.side.used.drop 0 = v₀.side.used from Buffer.ext rfl] at hp
      refine Handed.runPacket again hseg' hf hnr' hp ?_
      rw [hdel, hproc, List.drop_zero, hpending]
      simp [RecvSide.taken, hw]
    | full =>
      refine ⟨?_, fun _ => ⟨rfl, hf⟩⟩
      rw [(runPacket_trace again _ _).2.2.1]
      simpa [RecvView.runPacket, endPacket, changeRecvState, packets] using hseg'
    | @parse b hw hx hdata =>
      refine Handed.runPacket again hseg' hf hnr' (RecvSide.parse_cases p 0 _) ?_
      rw [hdel, hproc, List.drop_zero, hdata, ← List.append_assoc, hpending]
      simp [RecvSide.taken, hx]

theorem Handed.step (h : v.Handed p) (hb : v.Reassembled p) (hs : v.Step p next l v') :
    v'.Handed p := by
  cases hs with
  | quiet => exact h
  | event hr hh => exact h.event hb hr hh
  | @resume pos u again hf hi =>
    have hnr : v.trace.any Obs.rejected = false := by
      cases hrej : v.trace.any Obs.rejected with
      | false => rfl
      | true => cases hf.symm.trans (h.stopped hrej).2
    have hpending := (hb.parsed hnr).1
    rw [pending, hf] at hpending
    exact Handed.runPacket again h.segmented rfl hnr (RecvSide.parse_cases p (pos + u) v.side)
      hpending
  | run =>
    refine ⟨?_, fun hn => h.stopped (by simpa [Obs.rejected] using hn)⟩
    simpa [packets, processed, Obs.processed] using h.segmented

end RecvView

section
variable {cfg : Config} {w : World cfg}

theorem Reachable.recvBytes (h : Reachable w) : w.recvView.Reassembled cfg.parser :=
  h.invariant_with (I := fun w => w.recvView.Reassembled cfg.parser) (J := Accounts false false)
    (fun _ hr => Reachable.accounts hr) (streamed_init cfg).reassembled
    (fun _ _ _ _ hacc ih hs => ih.step (hacc.recvView_step hs))

theorem Reachable.recvView_got (h : Reachable w) : w.recvView.Got :=
  h.invariant_with (I := fun w => w.recvView.Got)
    (J := Accounts false false) (fun _ hr => Reachable.accounts hr)
    ⟨List.prefix_rfl, by simp [RecvView.Ended, World.recvView, World.init, system, Obs.ofRecv]⟩
    (fun _ _ _ _ hacc ih hs => ih.step hacc.waits (hacc.recvView_step hs))

theorem Reachable.got (h : Reachable w) : published w.trace <+: received w.trace := by
  obtain ⟨hreceived, hpublished, _, _⟩ := w.recvView_streams
  have hsound := h.recvView_got.sound
  rwa [hreceived, hpublished] at hsound

theorem Reachable.handed (h : Reachable w) : w.recvView.Handed cfg.parser :=
  h.invariant_with (I := fun w => w.recvView.Handed cfg.parser) (J := Reachable)
    (fun _ hr => hr)
    ⟨by simp [Segmented, World.recvView, World.init, system, Obs.ofRecv, packets],
      by simp [World.recvView, World.init, system, Obs.ofRecv]⟩
    (fun _ _ _ _ hr ih hs => ih.step hr.recvBytes (hr.accounts.recvView_step hs))

/-- The packets of the session are found in what was received. -/
theorem Reachable.segmented (h : Reachable w) :
    Segmented cfg.parser (packets w.trace) (received w.trace) := by
  have hseg := h.handed.segmented
  obtain ⟨_, hpublished, hprocessed, _⟩ := w.recvView_streams
  have htaken := h.recvBytes.taken
  rw [hpublished] at htaken
  refine (by rwa [World.recvView, packets_filter] at hseg : Segmented cfg.parser (packets w.trace)
    (processed w.recvView.trace)).mono ?_
  exact (htaken ▸ List.prefix_append _ _ : _ <+: published w.trace).trans h.got

/-- At rest, what is left of the stream is no packet. -/
theorem Reachable.rest (h : Reachable w) (hf : ∀ f ∈ w.stack, f.isOnRecv = false)
    (hn : w.trace.any Obs.rejected = false) :
    (packets w.trace).flatten ++ w.recv.used.data = processed w.trace ∧
      cfg.parser.incomplete w.recv.used.data = true := by
  obtain ⟨_, _, hprocessed, hdelivered⟩ := w.recvView_streams
  have hframes : w.recvView.frames = [] :=
    List.filter_eq_nil_iff.mpr fun f hm => by rw [hf f hm]; exact Bool.false_ne_true
  have hrejected : w.recvView.trace.any Obs.rejected = false :=
    (any_filter_of (fun o ho => by cases o <;> first | rfl | cases ho) _).trans hn
  obtain ⟨hpending, hrest⟩ := h.recvBytes.parsed hrejected
  rw [RecvView.pending, hframes, hdelivered, hprocessed] at hpending
  exact ⟨by rw [flatten_packets]; exact hpending, hrest hframes⟩

end

/-- Where nothing that is left is a packet, all packets that have come whole are there. -/
theorem whole_of_incomplete {p : PacketParser} {fs frames : List (List UInt8)}
    {rest stream : List UInt8} (hc : Carries p frames) (hfs : fs <+: frames)
    (hstream : fs.flatten ++ rest = stream) (hs : stream <+: frames.flatten)
    (hi : p.incomplete rest = true) : fs = whole frames stream.length := by
  obtain ⟨later, rfl⟩ := hfs
  rw [← hstream, List.flatten_append, List.prefix_append_right_inj] at hs
  have hnone : whole later rest.length = [] := by
    refine (of_leftover_lt fun f hf => ?_).1
    obtain ⟨later, rfl⟩ : ∃ fs, later = f :: fs := by
      cases later with
      | nil => cases hf
      | cons g gs =>
        cases hf
        exact ⟨gs, rfl⟩
    have hmem : f ∈ fs ++ f :: later := List.mem_append_right _ List.mem_cons_self
    by_contra hlong
    rw [List.flatten_cons] at hs
    obtain ⟨more, rfl⟩ := List.prefix_of_prefix_length_le (List.prefix_append f _) hs (by omega)
    rw [hc.complete hmem more] at hi
    cases hi
  rw [← hstream, List.length_append, whole_append, hnone, List.append_nil]

/-! ## From one end to the other -/

variable {a b : Config} {s : Link a b}

/-- How far a stream has come: bytes accepted, handed to the kernel, received, and handed to the
session of the other end in packets. -/
structure Carried (w : World a) (u : World b) (flight : List UInt8) : Prop where
  kernel : wire w.trace = received u.trace ++ flight
  sent : wire w.trace <+: accepted w.trace
  handed : (packets u.trace).flatten <+: accepted w.trace
  cut : Segmented b.parser (packets u.trace) (accepted w.trace)

theorem Link.carried (h : (link a b).Reachable s) : Carried s.left s.right s.toRight := by
  have hkernel := Link.conserved h
  have hsent := (Link.reachable_left h).sent
  have hcome : received s.right.trace <+: accepted s.left.trace :=
    (hkernel ▸ List.prefix_append _ _ : _ <+: wire s.left.trace).trans hsent
  have hcut := (Link.reachable_right h).segmented.mono hcome
  exact ⟨hkernel, hsent, hcut.flatten_isPrefix, hcut⟩

/-- **Each direction is a FIFO.** In every state of the two ends, whatever `Send` refuses, the
sockets answer, the parsers say and the sessions call, the session of each end has been handed the
beginning of what `Send` of the other end has accepted, nothing lost, doubled or out of order
in between, and cut where the parser cuts it. -/
theorem link_in_order (h : (link a b).Reachable s) :
    Carried s.left s.right s.toRight ∧ Carried s.right s.left s.toLeft :=
  ⟨Link.carried h, Link.carried (Link.run_swap h)⟩

/-- Both ends send; of three contexts the left one refuses the last. -/
theorem link_in_order_small : ∃ s : Link .small .small,
    accepted s.left.trace = Logic.twelve.take 8 ∧ packets s.right.trace = [] ∧
      accepted s.right.trace = [1, 2] ∧ wire s.right.trace = [1, 2] ∧
      Carried s.left s.right s.toRight ∧ Carried s.right s.left s.toLeft := by
  obtain ⟨s, h, hs⟩ := (link .small .small).run_of_exec (P := fun _ _ => True)
    [.left .ret, .right .ret, .left (.send [1, 0, 0, 0]), .left .take,
      .right (.send [1, 2]), .left (.send [12, 0, 0, 0]), .left (.send [3, 0, 0, 0]),
      .left (.runSend [.sent 3, .eagain]), .right .take, .right (.runSend [.sent 2]), .right .onIn,
      .right .push, .right .take, .right (.runRecv [.data 1 [0]])]
    (p := fun s => accepted s.left.trace == Logic.twelve.take 8 && packets s.right.trace == [] &&
      accepted s.right.trace == [1, 2] && wire s.right.trace == [1, 2]) (by decide)
  simp only [Bool.and_eq_true, beq_iff_eq] at hs
  exact ⟨s, hs.1.1.1, hs.1.1.2, hs.1.2, hs.2, link_in_order h⟩

/-- **Each direction is a FIFO of packets.** Where the bytes that one end accepts are packets
that the parser of the other end recognises, its session has been handed the first of them; at
rest, unless `ProcessPacket` has refused something, all that have come whole. -/
theorem link_packets (h : (link a b).Reachable s) {frames : List (List UInt8)}
    (hc : Carries b.parser frames) (hs : accepted s.left.trace <+: frames.flatten) :
    packets s.right.trace <+: frames ∧
    ((∀ f ∈ s.right.stack, f.isOnRecv = false) → s.right.trace.any Obs.rejected = false →
      packets s.right.trace = whole frames (processed s.right.trace).length) := by
  have hr := Link.reachable_right h
  have hcarried := Link.carried h
  have hfifo := hcarried.cut.isPrefix hc hs
  refine ⟨hfifo, fun hf hn => ?_⟩
  obtain ⟨hsplit, hi⟩ := hr.rest hf hn
  obtain ⟨_, hpublished, hprocessed, _⟩ := s.right.recvView_streams
  have htaken := hr.recvBytes.taken
  rw [hpublished, hprocessed] at htaken
  have hcome : received s.right.trace <+: accepted s.left.trace :=
    (hcarried.kernel ▸ List.prefix_append _ _ : _ <+: wire s.left.trace).trans hcarried.sent
  have hproc : processed s.right.trace <+: frames.flatten :=
    (htaken ▸ List.prefix_append _ _ : _ <+: published s.right.trace).trans
      (hr.got.trans (hcome.trans hs))
  exact whole_of_incomplete hc hfifo hsplit hproc hi

/-- A frame of twelve bytes that is sent in three pieces and received in two. -/
theorem link_packets_twelve : ∃ s : Link .small .small,
    accepted s.left.trace = Logic.twelve ∧ packets s.right.trace <+: [Logic.twelve] ∧
      packets s.right.trace = whole [Logic.twelve] (processed s.right.trace).length := by
  obtain ⟨s, h, hs⟩ := (link .small .small).run_of_exec (P := fun _ _ => True)
    [.left .ret, .right .ret, .left (.send [1, 0, 0, 0]), .left .take, .left (.runSend [.sent 4]),
      .left .push, .left .process, .left (.send [12, 0, 0, 0]), .left .take,
      .left (.runSend [.sent 4]), .right .onIn, .right .take,
      .right (.runRecv [.data 1 [0, 0, 0, 12]]), .left .push, .left .process,
      .left (.send [3, 0, 0, 0]), .left .take, .left (.runSend [.sent 4]), .right .push,
      .right .process, .right .onIn, .right .take, .right (.runRecv [.data 0 [0, 0, 3, 0, 0, 0]]),
      .right .push, .right .process, .right .ret]
    (p := fun s => accepted s.left.trace == Logic.twelve && s.right.stack.isEmpty &&
      !s.right.trace.any Obs.rejected) (by decide)
  simp only [Bool.and_eq_true, beq_iff_eq, List.isEmpty_iff, Bool.not_eq_true'] at hs
  obtain ⟨⟨hacc, hstack⟩, hok⟩ := hs
  have hc : Carries Config.small.parser [Logic.twelve] := Logic.Harbor.carries (by decide)
  obtain ⟨hfifo, hrest⟩ := link_packets h hc (by rw [hacc]; exact List.prefix_rfl)
  exact ⟨s, hacc, hfifo, hrest (by rw [hstack]; exact fun _ hf => absurd hf List.not_mem_nil) hok⟩

end HyperNet.Net
