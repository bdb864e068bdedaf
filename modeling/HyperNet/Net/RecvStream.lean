import HyperNet.Net.RecvView

/-! # The stream of received bytes

`OnRecv` publishes the offset of the working buffer on its normal exit only. The
bytes of a call that ends with the peer's close stay in the buffer unannounced,
and `NEVT_RECV_CLOSE` goes past `ProcessPacket`. -/
namespace HyperNet.Net
open HyperNet.Api HyperNet.Public HyperNet.Core.History HyperNet.Core.Transition

/-! ## What the trace says of the stream -/

/-- The bytes that `::recv` gave. -/
def Obs.received : Obs → List UInt8
  | .workerRecv _ bytes _ => bytes
  | _ => []

/-- The bytes whose offset is published. -/
def Obs.published : Obs → List UInt8
  | .workerRecv _ bytes .done => bytes
  | _ => []

/-- The bytes that `ProcessPacket` takes. -/
def Obs.processed : Obs → List UInt8
  | .processPacket _ bytes => bytes
  | _ => []

/-- The bytes that the session is handed. -/
def Obs.delivered : Obs → List UInt8
  | .onRecv packet => packet
  | _ => []

/-- `OnRecv` returns something else than `WRET_DONE`. -/
def Obs.recvEnds : Obs → Bool
  | .workerRecv _ _ ret => ret != .done
  | _ => false

/-- `::recv` returned 0. -/
def Obs.peerCloses : Obs → Bool
  | .workerRecv _ _ ret => ret == .close
  | _ => false

/-- `ProcessPacket` returns false. -/
def Obs.rejected : Obs → Bool
  | .packetsDone ok => !ok
  | _ => false

/-- The local side starts closing. -/
def Obs.closesLocally : Obs → Bool
  | .dispatch .close | .dispatch .error | .dispatch .sendError => true
  | o => o.rejected

def received (tr : List Obs) : List UInt8 := tr.flatMap Obs.received

def published (tr : List Obs) : List UInt8 := tr.flatMap Obs.published

def processed (tr : List Obs) : List UInt8 := tr.flatMap Obs.processed

def delivered (tr : List Obs) : List UInt8 := tr.flatMap Obs.delivered

theorem received_eq_published {tr : List Obs} (h : tr.any Obs.recvEnds = false) :
    received tr = published tr := by
  induction tr with
  | nil => rfl
  | cons o tr ih =>
    simp only [List.any_cons, Bool.or_eq_false_iff] at h
    simp only [received, published, List.flatMap_cons] at ih ⊢
    rw [ih h.2]
    congr 1
    cases o with
    | workerRecv offset bytes ret =>
      obtain rfl : ret = .done := by simpa [Obs.recvEnds] using h.1
      rfl
    | _ => rfl

theorem recvEnds_of_peerCloses {tr : List Obs} (h : tr.any Obs.peerCloses = true) :
    tr.any Obs.recvEnds = true := by
  obtain ⟨o, ho, hc⟩ := List.any_eq_true.mp h
  refine List.any_eq_true.mpr ⟨o, ho, ?_⟩
  cases o with
  | workerRecv offset bytes ret =>
    obtain rfl : ret = .close := by simpa [Obs.peerCloses] using hc
    rfl
  | _ => cases hc

/-! ## Data and end of stream in one call -/

def RecvRes.bytes : RecvRes → Nat
  | .data _ bs => bs.length + 1
  | _ => 0

def RecvRes.isData : RecvRes → Bool
  | .data _ _ => true
  | _ => false

/-- The socket answers one call of `OnRecv` with fewer bytes than the buffer holds, at least
one, and then with the end of the stream. -/
def dataThenEof (n : Nat) (rs : List RecvRes) : Bool :=
  rs.takeWhile RecvRes.isData != [] && (rs.dropWhile RecvRes.isData).head? == some .eof &&
    decide (((rs.takeWhile RecvRes.isData).map RecvRes.bytes).sum < n)

theorem recvLoop_close {n : Nat} {b b' : Buffer n} {rs : List RecvRes}
    (h : recvLoop b rs = (.close, b')) :
    (rs.dropWhile RecvRes.isData).head? = some .eof ∧
      b'.offset = b.offset + ((rs.takeWhile RecvRes.isData).map RecvRes.bytes).sum ∧
        b'.offset < n := by
  induction rs generalizing b with
  | nil => simp [recvLoop] at h
  | cons r rs ih =>
    unfold recvLoop at h
    split at h
    · next hlt =>
      cases r with
      | data x xs =>
        obtain ⟨heof, hsum, hn⟩ := ih h
        have hlen : (b.recv (x :: xs)).offset = b.offset + (xs.length + 1) := by
          have : (b.recv (x :: xs)).offset = b.offset + min (n - b.offset) (xs.length + 1) := by
            simp [Buffer.recv, Buffer.offset]
          omega
        refine ⟨by simpa [List.dropWhile_cons, RecvRes.isData] using heof, ?_, hn⟩
        rw [hsum, hlen]
        simp [List.takeWhile_cons, RecvRes.isData, RecvRes.bytes, Nat.add_assoc]
      | eof =>
        cases h
        exact ⟨rfl, by simp [RecvRes.isData], hlt⟩
      | eagain | error => cases h
    · cases h

/-- `OnRecv` returns `WRET_CLOSE` with bytes it has read only where both came in one call. -/
theorem dataThenEof_of_close {n : Nat} {b b' : Buffer n} {rs : List RecvRes} {bytes : List UInt8}
    (h : onRecv b rs = (.close, b', bytes)) (hb : b.data = []) (hne : bytes ≠ []) :
    dataThenEof n rs = true := by
  simp only [onRecv, Prod.mk.injEq] at h
  obtain ⟨hret, _, hbytes⟩ := h
  obtain ⟨heof, hsum, hn⟩ := recvLoop_close (Prod.ext hret rfl : recvLoop b rs = (.close, _))
  rw [Buffer.offset_eq_zero.mpr hb, Nat.zero_add] at hsum
  rw [Buffer.offset_eq_zero.mpr hb, List.drop_zero] at hbytes
  have hsome : rs.takeWhile RecvRes.isData ≠ [] := by
    intro hnil
    rw [hnil] at hsum
    exact hne (hbytes ▸ Buffer.offset_eq_zero.mp hsum)
  rw [hsum] at hn
  simp [dataThenEof, hsome, heof, hn]

/-! ## The invariant -/

namespace RecvView
variable {n : Nat} {p : PacketParser} {v v' v₀ : RecvView n} {e : NetEventType}
  {next : Option NetEventType} {l : Label}

/-- The bytes of the using buffer that the session has not been handed. -/
def pending (v : RecvView n) : List UInt8 :=
  match v.frames with
  | .onRecv pos u _ :: _ => v.side.used.data.drop (pos + u)
  | _ => v.side.used.data

/-- What is known of the bytes received so far. -/
structure Streamed (p : PacketParser) (v : RecvView n) : Prop where
  taken : published v.trace = processed v.trace ++ v.side.worked.data
  ended : v.trace.any Obs.recvEnds = true →
    v.items = [.result .recvError] ∨ v.items = [.result .recvClose] ∨
      v.items = [] ∧ v.side.state = .recvClose
  closing : v.side.state = .recvWaitClose → v.trace.any Obs.closesLocally = true
  whole : v.trace.any Obs.peerCloses = true → v.trace.any Obs.closesLocally = false →
    received v.trace = processed v.trace
  parsed : v.trace.any Obs.rejected = false →
    delivered v.trace ++ v.pending = processed v.trace ∧
      (v.frames = [] → p.incomplete v.side.used.data = true)

/-- The part of this that is about the bytes alone, whatever ends the stream. -/
structure Reassembled (p : PacketParser) (v : RecvView n) : Prop where
  taken : published v.trace = processed v.trace ++ v.side.worked.data
  parsed : v.trace.any Obs.rejected = false →
    delivered v.trace ++ v.pending = processed v.trace ∧
      (v.frames = [] → p.incomplete v.side.used.data = true)

theorem Streamed.reassembled (h : v.Streamed p) : v.Reassembled p := ⟨h.taken, h.parsed⟩

theorem Raises.same (hr : v.Raises next l e v₀) :
    v₀.side = v.side ∧ v₀.frames = v.frames ∧ v₀.trace = v.trace := by
  cases hr <;> exact ⟨rfl, rfl, rfl⟩

/-- What `ProcessPacket` does to the trace and the machine once it runs. -/
theorem runPacket_trace (again : Bool) (o : Parsing × RecvSide n) (v : RecvView n) :
    received (v.runPacket again o).trace = received v.trace ∧
      published (v.runPacket again o).trace = published v.trace ∧
      processed (v.runPacket again o).trace = processed v.trace ∧
      (v.runPacket again o).trace.any Obs.recvEnds = v.trace.any Obs.recvEnds ∧
      (v.runPacket again o).trace.any Obs.peerCloses = v.trace.any Obs.peerCloses ∧
      (v.runPacket again o).side.worked = o.2.worked := by
  obtain ⟨parsing, r⟩ := o
  cases parsing with
  | onRecv pos u =>
    simp [runPacket, received, published, processed, Obs.received, Obs.published, Obs.processed,
      Obs.recvEnds, Obs.peerCloses]
  | done ok =>
    cases ok <;> cases again <;>
      simp [runPacket, endPacket, beginRecv, changeRecvState, received, published, processed,
        Obs.received, Obs.published, Obs.processed, Obs.recvEnds, Obs.peerCloses]

theorem runPacket_grows (again : Bool) (o : Parsing × RecvSide n) (v : RecvView n) :
    v.trace <+: (v.runPacket again o).trace := by
  obtain ⟨parsing, r⟩ := o
  cases parsing with
  | onRecv pos u => exact List.prefix_append _ _
  | done ok =>
    cases ok with
    | false => exact List.prefix_append _ _
    | true =>
      cases again with
      | false => exact List.prefix_append _ _
      | true => exact (List.prefix_append _ _).trans (List.prefix_append _ _)

/-- The loop of `ProcessPacket` hands on what it skips, and stops before a packet that is not
complete. -/
theorem parsed_runPacket {pos : Nat} {r : RecvSide n} {o : Parsing × RecvSide n} (again : Bool)
    (hf : v.frames = []) (ho : r.Parses p pos o)
    (hd : v.trace.any Obs.rejected = false →
      delivered v.trace ++ r.used.data.drop pos = processed v.trace)
    (hn : (v.runPacket again o).trace.any Obs.rejected = false) :
    delivered (v.runPacket again o).trace ++ (v.runPacket again o).pending =
        processed (v.runPacket again o).trace ∧
      ((v.runPacket again o).frames = [] →
        p.incomplete (v.runPacket again o).side.used.data = true) := by
  rw [(runPacket_trace again o v).2.2.1]
  have hv := hd (not_any_of_grows (runPacket_grows again o v) hn)
  cases ho with
  | rest hi =>
    cases again <;>
      simpa [runPacket, endPacket, beginRecv, changeRecvState, delivered, Obs.delivered, pending,
        hf, hi] using hv
  | @packet u hu hp hl =>
    refine ⟨?_, by simp [runPacket]⟩
    rw [← hv]
    simp only [runPacket, delivered, List.flatMap_append, List.flatMap_cons, List.flatMap_nil,
      Obs.delivered, pending, List.append_nil, List.append_assoc]
    rw [← List.drop_drop, List.take_append_drop]
  | bad =>
    simp [runPacket, endPacket, changeRecvState, Obs.rejected] at hn

/-- The main thread and the worker hold what belongs to a request of a busy machine. -/
def Waits (v : RecvView n) : Prop := v.items ≠ [] ∨ v.frames ≠ [] → v.side.state.busy = true

/-- An ended stream stays ended; in particular nothing more is processed. -/
theorem Streamed.ended_event (h : v.Streamed p) (hw : v.Waits) (hr : v.Raises next l e v₀)
    (hh : v₀.Handles p e v') (he : v.trace.any Obs.recvEnds = true) :
    (v'.items = [.result .recvError] ∨ v'.items = [.result .recvClose] ∨
      v'.items = [] ∧ v'.side.state = .recvClose) ∧
      processed v'.trace = processed v.trace ∧ received v'.trace = received v.trace := by
  have hstill : ∀ o : Obs, processed (v.trace ++ [o]) = processed v.trace ++ o.processed ∧
      received (v.trace ++ [o]) = received v.trace ++ o.received := by
    intro o
    simp [processed, received]
  have hdispatch := hstill (.dispatch e)
  simp only [Obs.processed, Obs.received, List.append_nil] at hdispatch
  cases hr with
  | result hres hn hi hf =>
    have hbusy := hw (.inl (by rw [hi]; nofun))
    have hchange : v.side.state.onEvent e = .change .recvClose := by
      rcases h.ended he with hv | hv | ⟨hv, _⟩
      · rw [hi] at hv
        cases hv
        exact RecvState.onEvent_ends hbusy (.inl rfl)
      · rw [hi] at hv
        cases hv
        exact RecvState.onEvent_ends hbusy (.inr rfl)
      · rw [hi] at hv
        cases hv
    cases hh with
    | change ha =>
      rw [hchange] at ha
      cases ha
      exact ⟨.inr (.inr ⟨rfl, rfl⟩), hdispatch⟩
    | stay ha | beginRecv ha | processPacket ha => rw [hchange] at ha; cases ha
  | other hres =>
    cases hh with
    | stay => exact ⟨h.ended he, hdispatch⟩
    | change ha =>
      refine ⟨?_, hdispatch⟩
      rcases h.ended he with hv | hv | ⟨_, hs⟩
      · exact .inl hv
      · exact .inr (.inl hv)
      · rw [hs] at ha
        cases ha
    | beginRecv ha hi =>
      rcases h.ended he with hv | hv | ⟨_, hs⟩
      · rw [hi] at hv
        cases hv
      · rw [hi] at hv
        cases hv
      · rw [hs] at ha
        cases ha
    | processPacket ha =>
      rw [(RecvState.processPacket_cases ha).1] at hres
      cases hres

/-- An event leaves what the worker did alone. -/
theorem handles_trace (hr : v.Raises next l e v₀) (hh : v₀.Handles p e v') :
    v.trace <+: v'.trace ∧ published v'.trace = published v.trace ∧
      v'.trace.any Obs.recvEnds = v.trace.any Obs.recvEnds ∧
      v'.trace.any Obs.peerCloses = v.trace.any Obs.peerCloses := by
  rw [← hr.same.2.2]
  cases hh with
  | stay | change =>
    exact ⟨List.prefix_append _ _, by simp [log, changeRecvState, published, Obs.published],
      by simp [log, changeRecvState, Obs.recvEnds], by simp [log, changeRecvState, Obs.peerCloses]⟩
  | beginRecv =>
    refine ⟨(List.prefix_append _ [Obs.dispatch e]).trans (List.prefix_append _ _), ?_, ?_, ?_⟩
    · simp [log, beginRecv, changeRecvState, published, Obs.published]
    · simp [log, beginRecv, changeRecvState, Obs.recvEnds]
    · simp [log, beginRecv, changeRecvState, Obs.peerCloses]
  | @processPacket again o =>
    obtain ⟨_, hpub, _, hends, hpeer, _⟩ := runPacket_trace again o
      ((v₀.log (.dispatch e)).log (.processPacket 0 v₀.side.taken))
    refine ⟨?_, ?_, ?_, ?_⟩
    · have hlog : v₀.trace <+:
          ((v₀.log (.dispatch e)).log (.processPacket 0 v₀.side.taken)).trace :=
        (List.prefix_append _ _).trans (List.prefix_append _ _)
      exact hlog.trans (runPacket_grows again o _)
    · rw [hpub]
      simp [log, published, Obs.published]
    · rw [hends]
      simp [log, Obs.recvEnds]
    · rw [hpeer]
      simp [log, Obs.peerCloses]

/-- What `ProcessPacket` takes and what it leaves are the working buffer. -/
theorem taken_worked {r : RecvSide n} {o : Parsing × RecvSide n} (h : r.Processes p o) :
    r.taken ++ o.2.worked.data = r.worked.data := by
  cases h with
  | nothing hw => simp [RecvSide.taken, hw]
  | full _ hx => simp [RecvSide.taken, hx]
  | @parse b hw hx hb =>
    rw [(RecvSide.parse_cases p 0 { r with used := b, worked := .empty }).keeps.2]
    simp [RecvSide.taken, hx]

/-- `ProcessPacket` returns to a state that does not wait, or stays in the session. -/
theorem runPacket_state {again : Bool} {o : Parsing × RecvSide n}
    (h : (v.runPacket again o).side.state = .recvWaitClose) : o.2.state = .recvWaitClose := by
  obtain ⟨parsing, r⟩ := o
  cases parsing with
  | onRecv => exact h
  | done ok => cases ok <;> cases again <;> cases h

/-- `ProcessPacket` runs on a trace that says which bytes it takes. -/
theorem processing (e : NetEventType) (bytes : List UInt8) (v : RecvView n) :
    delivered ((v.log (.dispatch e)).log (.processPacket 0 bytes)).trace = delivered v.trace ∧
      processed ((v.log (.dispatch e)).log (.processPacket 0 bytes)).trace =
        processed v.trace ++ bytes := by
  simp [log, delivered, processed, Obs.delivered, Obs.processed]

theorem Reassembled.event_taken (h : v.Reassembled p) (hr : v.Raises next l e v₀)
    (hh : v₀.Handles p e v') : published v'.trace = processed v'.trace ++ v'.side.worked.data := by
  obtain ⟨hside, _, htrace⟩ := hr.same
  rw [(handles_trace hr hh).2.1, h.taken, ← hside, ← htrace]
  cases hh with
  | stay | change | beginRecv =>
    simp [log, beginRecv, changeRecvState, processed, Obs.processed]
  | @processPacket again o ha ho =>
    obtain ⟨_, _, hproc, _, _, hworked⟩ := runPacket_trace again o
      ((v₀.log (.dispatch e)).log (.processPacket 0 v₀.side.taken))
    rw [hproc, hworked, (processing e _ v₀).2, ← taken_worked ho, List.append_assoc]

theorem Reassembled.event_parsed (h : v.Reassembled p) (hr : v.Raises next l e v₀)
    (hh : v₀.Handles p e v') (hn : v'.trace.any Obs.rejected = false) :
    delivered v'.trace ++ v'.pending = processed v'.trace ∧
      (v'.frames = [] → p.incomplete v'.side.used.data = true) := by
  obtain ⟨hside, hframes, htrace⟩ := hr.same
  have hv := h.parsed (not_any_of_grows (handles_trace hr hh).1 hn)
  rw [pending, ← hside, ← hframes, ← htrace] at hv
  obtain ⟨hpending, hrest⟩ := hv
  cases hh with
  | stay | change | beginRecv =>
    simpa [log, beginRecv, changeRecvState, processed, Obs.processed, delivered, Obs.delivered,
      pending] using And.intro hpending hrest
  | @processPacket again o ha ho hi hf =>
    obtain ⟨hdel, hproc⟩ := processing e v₀.side.taken v₀
    rw [hf] at hpending
    cases ho with
    | nothing hw =>
      have hp : v₀.side.Parses p 0 (.done true, { v₀.side with used := v₀.side.used.drop 0 }) :=
        .rest (by rw [List.drop_zero]; exact hrest hf)
      rw [show v₀.side.used.drop 0 = v₀.side.used from Buffer.ext rfl] at hp
      have htaken : v₀.side.taken = [] := by simp [RecvSide.taken, hw]
      refine parsed_runPacket again hf hp (fun _ => ?_) hn
      rw [hdel, hproc, htaken, List.append_nil, List.drop_zero]
      exact hpending
    | full => simp [runPacket, endPacket, changeRecvState, Obs.rejected] at hn
    | @parse b hw hx hb =>
      have htaken : v₀.side.taken = v₀.side.worked.data := by simp [RecvSide.taken, hx]
      refine parsed_runPacket again hf (RecvSide.parse_cases p 0 _) (fun _ => ?_) hn
      rw [hdel, hproc, htaken, List.drop_zero, hb, ← List.append_assoc]
      exact congrArg (· ++ _) hpending

theorem Reassembled.event (h : v.Reassembled p) (hr : v.Raises next l e v₀)
    (hh : v₀.Handles p e v') : v'.Reassembled p :=
  ⟨h.event_taken hr hh, h.event_parsed hr hh⟩

theorem Reassembled.resume (h : v.Reassembled p) {pos u : Nat} {again : Bool}
    (hf : v.frames = [.onRecv pos u again]) :
    (runPacket again (v.side.parse p (pos + u)) { v with frames := [] }).Reassembled p := by
  have hparse := RecvSide.parse_cases p (pos + u) v.side
  obtain ⟨_, hpub, hproc, _, _, hworked⟩ :=
    runPacket_trace again (v.side.parse p (pos + u)) { v with frames := [] }
  refine ⟨?_, fun hn => parsed_runPacket again rfl hparse (fun hv => ?_) hn⟩
  · rw [hpub, hproc, hworked, hparse.keeps.2]
    exact h.taken
  · have := (h.parsed hv).1
    rwa [pending, hf] at this

theorem Reassembled.run (h : v.Reassembled p) {rs : List RecvRes} {ret : WRet} {b : Buffer n}
    {bytes : List UInt8} (hempty : v.side.worked.data = [])
    (ho : onRecv v.side.worked rs = (ret, b, bytes)) :
    Reassembled p { v with
      side.worked := b, items := [.result e], trace := v.trace ++ [.workerRecv 0 bytes ret] } := by
  obtain ⟨_, hdone, hkeep⟩ := onRecv_spec ho
  constructor
  · have ht := h.taken
    rw [hempty, List.append_nil] at ht
    by_cases hd : ret = .done
    · have hb := hdone hd
      rw [hempty, List.nil_append] at hb
      subst hd
      simp only [published, processed, List.flatMap_append, List.flatMap_singleton,
        Obs.published, Obs.processed, List.append_nil, hb] at ht ⊢
      rw [ht]
    · have hp : (Obs.workerRecv 0 bytes ret).published = [] := by
        cases ret <;> first | rfl | exact absurd rfl hd
      simp only [published, processed, List.flatMap_append, List.flatMap_singleton, hp,
        Obs.processed, List.append_nil, hkeep hd, hempty] at ht ⊢
      exact ht
  · intro hn
    have := h.parsed (not_any_of_grows (List.prefix_append _ _) hn)
    simpa [delivered, processed, Obs.delivered, Obs.processed, pending] using this

theorem Reassembled.step (h : v.Reassembled p) (hs : v.Step p next l v') :
    v'.Reassembled p := by
  cases hs with
  | quiet => exact h
  | event hr hh => exact h.event hr hh
  | resume hf => exact h.resume hf
  | run _ _ hempty ho => exact h.run hempty ho

theorem Streamed.event_closing (h : v.Streamed p) (hr : v.Raises next l e v₀)
    (hh : v₀.Handles p e v') (hs : v'.side.state = .recvWaitClose) :
    v'.trace.any Obs.closesLocally = true := by
  have hgrows := (handles_trace hr hh).1
  cases hh with
  | stay => exact any_of_grows hgrows (h.closing (by rw [← hr.same.1]; exact hs))
  | @change t ha =>
    obtain rfl : t = .recvWaitClose := hs
    refine List.any_eq_true.mpr ⟨.dispatch e, by simp [log, changeRecvState], ?_⟩
    rcases RecvState.waitClose_of_change ha with rfl | rfl | rfl <;> rfl
  | @beginRecv t ha =>
    obtain rfl : t = .recvWaitClose := hs
    have := (RecvState.closing_of_beginRecv ha).1
    cases this
  | processPacket ha ho =>
    have := runPacket_state hs
    rw [ho.keeps.1, (RecvState.processPacket_cases ha).2] at this
    split at this <;> cases this

theorem Streamed.event (h : v.Streamed p) (hw : v.Waits) (hr : v.Raises next l e v₀)
    (hh : v₀.Handles p e v') : v'.Streamed p := by
  obtain ⟨hgrows, _, hends, hpeer⟩ := handles_trace hr hh
  have hended := h.ended_event hw hr hh
  have hbytes := h.reassembled.event hr hh
  refine ⟨hbytes.taken, ?_, h.event_closing hr hh, ?_, hbytes.parsed⟩
  · intro he
    exact (hended (hends.symm.trans he)).1
  · intro hc hl
    rw [hpeer] at hc
    obtain ⟨_, hproc, hrecv⟩ := hended (recvEnds_of_peerCloses hc)
    rw [hproc, hrecv]
    exact h.whole hc (not_any_of_grows hgrows hl)

/-- The stream has not ended while the session is in `OnRecv` or the worker in `OnRecv`. -/
theorem Streamed.running (h : v.Streamed p) (hw : v.Waits)
    (hi : v.frames ≠ [] ∧ v.items = [] ∨ v.items = [.request .recv]) :
    v.trace.any Obs.recvEnds = false := by
  cases he : v.trace.any Obs.recvEnds with
  | false => rfl
  | true =>
    rcases hi with ⟨hf, hi⟩ | hi
    · rcases h.ended he with hv | hv | ⟨_, hs⟩
      · rw [hi] at hv
        cases hv
      · rw [hi] at hv
        cases hv
      · have := hw (.inr hf)
        rw [hs] at this
        cases this
    · rcases h.ended he with hv | hv | ⟨hv, _⟩ <;> rw [hi] at hv <;> cases hv

theorem Streamed.resume (h : v.Streamed p) (hw : v.Waits) {pos u : Nat} {again : Bool}
    (hf : v.frames = [.onRecv pos u again]) (hi : v.items = []) :
    (runPacket again (v.side.parse p (pos + u)) { v with frames := [] }).Streamed p := by
  have hrun := h.running hw (.inl ⟨by rw [hf]; nofun, hi⟩)
  have hparse := RecvSide.parse_cases p (pos + u) v.side
  have hgrows := runPacket_grows again (v.side.parse p (pos + u)) { v with frames := [] }
  have hbytes := h.reassembled.resume hf
  obtain ⟨_, _, _, hends, hpeer, _⟩ :=
    runPacket_trace again (v.side.parse p (pos + u)) { v with frames := [] }
  refine ⟨hbytes.taken, ?_, ?_, ?_, hbytes.parsed⟩
  · intro he
    rw [hends] at he
    rw [show v.trace.any Obs.recvEnds = true from he] at hrun
    cases hrun
  · intro hs
    have := runPacket_state hs
    rw [hparse.keeps.1] at this
    exact any_of_grows hgrows (h.closing this)
  · intro hc
    rw [hpeer] at hc
    rw [recvEnds_of_peerCloses hc] at hrun
    cases hrun

theorem Streamed.run (h : v.Streamed p) (hw : v.Waits) {rs : List RecvRes} {ret : WRet}
    {b : Buffer n} {bytes : List UInt8} (hi : v.items = [.request .recv])
    (hempty : v.side.worked.data = []) (ho : onRecv v.side.worked rs = (ret, b, bytes))
    (he : recvEvent ret = some e)
    (hg : v.side.state ≠ .recvWaitClose → dataThenEof n rs = false) :
    Streamed p { v with
      side.worked := b, items := [.result e], trace := v.trace ++ [.workerRecv 0 bytes ret] } := by
  have hrun := h.running hw (.inr hi)
  have hmoved := h.reassembled.run (e := e) hempty ho
  refine ⟨hmoved.taken, ?_, ?_, ?_, hmoved.parsed⟩
  · intro hends
    have hne : ret ≠ .done := by simpa [hrun, Obs.recvEnds] using hends
    cases ret with
    | done => exact absurd rfl hne
    | error =>
      cases he
      exact .inl rfl
    | close =>
      cases he
      exact .inr (.inl rfl)
    | pending => cases he
  · intro hs
    exact any_of_grows (List.prefix_append _ _) (h.closing hs)
  · intro hc hl
    have hnot : v.trace.any Obs.peerCloses = false := by
      cases hp : v.trace.any Obs.peerCloses with
      | false => rfl
      | true =>
        rw [recvEnds_of_peerCloses hp] at hrun
        cases hrun
    obtain rfl : ret = .close := by simpa [hnot, Obs.peerCloses] using hc
    have hopen : v.side.state ≠ .recvWaitClose := by
      intro hs
      have := h.closing hs
      rw [not_any_of_grows (List.prefix_append _ _) hl] at this
      cases this
    have hbytes : bytes = [] := by
      by_contra hne
      have := dataThenEof_of_close ho hempty hne
      rw [hg hopen] at this
      cases this
    have ht := h.taken
    rw [hempty, List.append_nil, ← received_eq_published hrun] at ht
    simpa [received, processed, Obs.received, Obs.processed, hbytes] using ht

theorem Streamed.step (h : v.Streamed p) (hw : v.Waits)
    (hg : ∀ rs, l = .runRecv rs → v.side.state ≠ .recvWaitClose → dataThenEof n rs = false)
    (hs : v.Step p next l v') : v'.Streamed p := by
  cases hs with
  | quiet => exact h
  | event hr hh => exact h.event hw hr hh
  | resume hf hi => exact h.resume hw hf hi
  | run hi _ hempty ho he => exact h.run hw hi hempty ho he (hg _ rfl)

end RecvView

/-- The receive side keeps what the trace says of the stream. -/
theorem World.recvView_streams {cfg : Config} (w : World cfg) :
    received w.recvView.trace = received w.trace ∧
      published w.recvView.trace = published w.trace ∧
      processed w.recvView.trace = processed w.trace ∧
      delivered w.recvView.trace = delivered w.trace := by
  have hfilter : ∀ {f : Obs → List UInt8}, (∀ o, Obs.ofRecv o = false → f o = []) →
      w.recvView.trace.flatMap f = w.trace.flatMap f := fun hf => flatMap_filter_of hf _
  refine ⟨hfilter ?_, hfilter ?_, hfilter ?_, hfilter ?_⟩ <;>
    exact fun o ho => by cases o <;> first | rfl | cases ho

theorem Accounts.waits {cfg : Config} {w : World cfg} (h : Accounts false false w) :
    w.recvView.Waits := by
  rintro (hi | hf)
  · exact (h.recv_busy (.inr hi)).1
  · by_contra hb
    exact hf (h.frames_nil (by simpa [World.recvView] using hb))

/-- The worker does not find data and the end of the stream in one call of `OnRecv`, unless
the local side is already waiting to close. -/
def World.NoDataThenEof {cfg : Config} (w : World cfg) (l : Label) : Prop :=
  match l with
  | .runRecv rs => w.recv.state ≠ .recvWaitClose → dataThenEof cfg.recvSize rs = false
  | _ => True

instance {cfg : Config} (w : World cfg) (l : Label) : Decidable (w.NoDataThenEof l) :=
  match l with
  | .runRecv _ => inferInstanceAs (Decidable (_ → _))
  | .send _ | .close | .ret | .onIn | .onOut | .onError _ | .process | .take | .runSend _
  | .push => isTrue trivial

theorem streamed_init (cfg : Config) : (World.init cfg).recvView.Streamed cfg.parser where
  taken := rfl
  ended := nofun
  closing := nofun
  whole := nofun
  parsed _ := ⟨rfl, fun _ => by simp [World.recvView, World.init, PacketParser.incomplete]⟩

/-- As long as data and the end of the stream come in different calls, all the bytes received
before the peer closed have been through `ProcessPacket` when the close is seen, and
every packet they complete has been handed to the session. -/
theorem bytes_before_close_processed {cfg : Config} {w : World cfg}
    (h : (system cfg).Run World.NoDataThenEof w) (hpeer : w.trace.any Obs.peerCloses = true)
    (hlocal : w.trace.any Obs.closesLocally = false) :
    received w.trace = processed w.trace ∧
    delivered w.trace ++ w.recv.used.data = processed w.trace ∧
    cfg.parser.incomplete w.recv.used.data = true := by
  have hacc := Reachable.accounts h.reachable
  have hinv : w.recvView.Streamed cfg.parser := h.invariant_with
    (I := fun w => w.recvView.Streamed cfg.parser) (J := Accounts false false)
    (fun _ hr => Reachable.accounts hr.reachable) (streamed_init cfg)
    (fun _ _ _ hg hacc ih hs => ih.step hacc.waits (by rintro rs rfl; exact hg)
      (hacc.recvView_step hs))
  obtain ⟨hreceived, _, hprocessed, hdelivered⟩ := w.recvView_streams
  have hclose : w.recvView.trace.any Obs.peerCloses = true :=
    (any_filter_of (fun o ho => by cases o <;> first | rfl | cases ho) _).trans hpeer
  have hopen : w.recvView.trace.any Obs.closesLocally = false :=
    (any_filter_of (fun o ho => by cases o <;> first | rfl | cases ho) _).trans hlocal
  have hwhole := hinv.whole hclose hopen
  rw [hreceived, hprocessed] at hwhole
  have hframes : w.recvView.frames = [] := by
    by_contra hne
    have hbusy := hacc.waits (.inr hne)
    rcases hinv.ended (recvEnds_of_peerCloses hclose) with hi | hi | ⟨_, hs⟩
    · exact hne (hacc.frames_of_item (by rw [show w.recvItems = _ from hi]; nofun))
    · exact hne (hacc.frames_of_item (by rw [show w.recvItems = _ from hi]; nofun))
    · rw [hs] at hbusy
      cases hbusy
  have hrejected : w.recvView.trace.any Obs.rejected = false := by
    rw [List.any_eq_false]
    intro o ho hr
    refine List.any_eq_false.mp hopen o ho ?_
    cases o <;> first | exact hr | cases hr
  obtain ⟨hpending, hrest⟩ := hinv.parsed hrejected
  rw [RecvView.pending, hframes, hdelivered, hprocessed] at hpending
  exact ⟨hwhole, hpending, hrest hframes⟩

/-- Two calls of `OnRecv`: a frame and the beginning of the next, then the close. -/
theorem bytes_before_close_processed_small : ∃ w : World .small,
    received w.trace = [1, 0, 0, 0, 9, 0, 0, 0, 7, 1, 0] ∧
      received w.trace = processed w.trace ∧
      delivered w.trace ++ w.recv.used.data = processed w.trace := by
  obtain ⟨w, h, hw⟩ := (system .small).run_of_exec (P := World.NoDataThenEof)
    [.ret, .onIn, .take, .runRecv [.data 1 [0, 0, 0, 9, 0, 0, 0, 7], .data 1 [0], .eagain], .push,
      .process, .ret, .onIn, .take, .runRecv [.eof], .push]
    (p := fun w => received w.trace == [1, 0, 0, 0, 9, 0, 0, 0, 7, 1, 0] &&
      w.trace.any Obs.peerCloses && !w.trace.any Obs.closesLocally) (by decide)
  simp only [Bool.and_eq_true, beq_iff_eq, Bool.not_eq_true'] at hw
  obtain ⟨hp, hd, _⟩ := bytes_before_close_processed h hw.1.2 hw.2
  exact ⟨w, hw.1.1, hp, hd⟩

/-- One call of `OnRecv` reads a frame and the close: the session never sees the frame. -/
theorem frame_lost_before_close : ∃ w : World .small, Reachable w ∧
    w.trace.any Obs.closesLocally = false ∧ w.recv.state = .recvClose ∧
      received w.trace = [1, 0, 0, 0, 9, 0, 0, 0, 7] ∧ processed w.trace = [] ∧
        delivered w.trace = [] := by
  obtain ⟨w, h, hw⟩ := (system .small).run_of_exec (P := fun _ _ => True)
    [.ret, .onIn, .take, .runRecv [.data 1 [0, 0, 0, 9, 0, 0, 0, 7], .eof], .push, .process]
    (p := fun w => !w.trace.any Obs.closesLocally && w.recv.state == .recvClose &&
      received w.trace == [1, 0, 0, 0, 9, 0, 0, 0, 7] && processed w.trace == [] &&
      delivered w.trace == []) (by decide)
  simp only [Bool.and_eq_true, beq_iff_eq, Bool.not_eq_true'] at hw
  obtain ⟨⟨⟨⟨hl, hs⟩, hr⟩, hp⟩, hd⟩ := hw
  exact ⟨w, h, hl, hs, hr, hp, hd⟩

end HyperNet.Net
