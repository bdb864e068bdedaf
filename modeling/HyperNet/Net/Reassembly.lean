import HyperNet.Net.ProcessPacket
import HyperNet.Net.RecvStream

/-! # What is read is handed on, once and in order (Connection::ProcessPacket)

The parser reads bytes of the peer and says how far the loop moves. Whatever it says,
each byte read goes to the session in one packet or stays in the using buffer, as long
as the sum that `ProcessPacket` compares with the size of the buffer is an `s32`. -/
namespace HyperNet.Net
open HyperNet.Api HyperNet.Public HyperNet.Core.History HyperNet.Core.Transition

namespace RecvSide
variable {n : Nat} {p : PacketParser}

/-! ## The loop -/

/-- A run of the loop of `ProcessPacket` from `pos` to its end. -/
inductive Loop (p : PacketParser) : Nat → RecvSide n → Outcome n → Prop
  | done {pos : Nat} {r r' : RecvSide n} {ok : Bool} (h : r.parse p pos = (.done ok, r')) :
      Loop p pos r ⟨ok, [], r'⟩
  | packet {pos pos' u : Nat} {r r' : RecvSide n} {o : Outcome n}
      (h : r.parse p pos = (.onRecv pos' u, r')) (hl : Loop p (pos' + u) r' o) :
      Loop p pos r (o.after [(r'.used.data.drop pos').take u])

theorem Loop.unique {pos : Nat} {r : RecvSide n} {o o' : Outcome n} (h : Loop p pos r o)
    (h' : Loop p pos r o') : o' = o := by
  induction h generalizing o' with
  | done h =>
    cases h' with
    | done h' =>
      cases h.symm.trans h'
      rfl
    | packet h' _ => cases h.symm.trans h'
  | packet h _ ih =>
    cases h' with
    | done h' => cases h.symm.trans h'
    | packet h' hl' =>
      cases h.symm.trans h'
      rw [ih hl']

/-- Each turn moves on by a byte at least, so the loop comes to its end. -/
theorem loop_packetLoop (k pos : Nat) (r : RecvSide n) (h : r.used.offset ≤ pos + k) :
    Loop p pos r (packetLoop p k pos r) := by
  induction k generalizing pos with
  | zero => exact .done (parse_end p (by omega))
  | succ k ih =>
    rw [packetLoop]
    have ho := parse_cases p pos r
    generalize hparse : r.parse p pos = o at ho
    cases ho with
    | rest | bad => exact .done hparse
    | @packet u hu => exact .packet hparse (ih (pos + u) (by omega))

theorem loop_iff {pos : Nat} {r : RecvSide n} {o : Outcome n} :
    Loop p pos r o ↔ o = packetLoop p r.used.offset pos r := by
  have hloop : Loop p pos r (packetLoop p r.used.offset pos r) :=
    loop_packetLoop r.used.offset pos r (Nat.le_add_left _ _)
  constructor
  · exact fun h => hloop.unique h
  · rintro rfl
    exact hloop

/-- What the loop hands on and what it leaves are the bytes behind `pos`. -/
theorem Loop.bytes {pos : Nat} {r : RecvSide n} {o : Outcome n} (h : Loop p pos r o) :
    o.side.worked = r.worked ∧
      (o.ok = true → o.packets.flatten ++ o.side.used.data = r.used.data.drop pos) := by
  induction h with
  | @done pos r r' ok h =>
    have ho := parse_cases p pos r
    rw [h] at ho
    cases ho with
    | rest => exact ⟨rfl, fun _ => rfl⟩
    | bad => exact ⟨rfl, nofun⟩
  | @packet pos pos' u r r' o h hl ih =>
    have ho := parse_cases p pos r
    rw [h] at ho
    cases ho with
    | packet =>
      obtain ⟨hworked, hbytes⟩ := ih
      refine ⟨hworked, fun hok => ?_⟩
      rw [Outcome.after_packets, Outcome.after_side, List.flatten_append, List.append_assoc,
        hbytes hok, List.flatten_singleton, ← List.drop_drop, List.take_append_drop]

/-! ## One call -/

/-- A read that leaves the sum an `s32` is taken over, or refused. -/
theorem processPackets_bytes {r : RecvSide n} {bytes : List UInt8} (hn : n < s32Bound)
    (hr : r.worked.data = []) (hb : bytes.length ≤ n)
    (hsum : r.used.offset + bytes.length < s32Bound) :
    ∃ o, (r.read bytes).processPackets p = some o ∧
      (o.ok = true → o.packets.flatten ++ o.side.used.data = r.used.data ++ bytes ∧
        o.side.worked.data = []) := by
  by_cases hfit : r.used.offset + bytes.length ≤ n
  · by_cases hne : bytes = []
    · subst hne
      have hworked : (r.read []).worked.data = [] := read_worked hr hb
      have hzero := Buffer.offset_eq_zero.mpr hworked
      refine ⟨⟨true, [], r.read []⟩, ?_, fun _ => ⟨?_, hworked⟩⟩
      · simp [processPackets, processPacket, hzero, follow]
      · simp [read]
    · obtain ⟨b, hdata, hrun⟩ := processPackets_run (p := p) hr hne hn hfit
      have hloop := (loop_packetLoop (p := p) (b.offset + 1) 0
        { r.read bytes with used := b, worked := .empty } (by simp only; omega)).bytes
      refine ⟨_, hrun, fun hok => ⟨?_, by rw [hloop.1]; rfl⟩⟩
      rw [hloop.2 hok, List.drop_zero, hdata]
  · refine ⟨⟨false, [], r.read bytes⟩, ?_, fun hok => absurd hok Bool.false_ne_true⟩
    rw [processPackets_refused hr hn hb (by omega), if_pos hsum]

/-- Where the sum is no `s32`, the check lets a copy pass that does not fit. -/
theorem processPackets_wraps {r : RecvSide n} {bytes : List UInt8} (hn : n < s32Bound)
    (hr : r.worked.data = []) (hb : bytes.length ≤ n)
    (hsum : s32Bound ≤ r.used.offset + bytes.length) :
    (r.read bytes).processPackets p = none := by
  rw [processPackets_refused hr hn hb (by omega), if_neg (by omega)]

/-! ## Any number of calls -/

/-- Before each `ProcessPacket` of these reads, `worked.offset + used.offset` is an `s32`. -/
def SumsFit (p : PacketParser) : RecvSide n → List (List UInt8) → Prop
  | _, [] => True
  | r, bytes :: reads => r.used.offset + bytes.length < s32Bound ∧
      ∀ o ∈ (r.read bytes).processPackets p, o.ok = true → SumsFit p o.side reads

theorem SumsFit.take {r : RecvSide n} {reads : List (List UInt8)} (h : SumsFit p r reads)
    (k : Nat) : SumsFit p r (reads.take k) := by
  induction reads generalizing r k with
  | nil => rwa [List.take_nil]
  | cons bytes reads ih =>
    cases k with
    | zero => trivial
    | succ k => exact ⟨h.1, fun o ho hok => ih (h.2 o ho hok) k⟩

/-- Reads in a buffer of no more than half the range of an `s32` always are. -/
theorem sumsFit_of_small (h : 2 * n < s32Bound) {r : RecvSide n} {reads : List (List UInt8)}
    (hreads : ∀ bytes ∈ reads, bytes.length ≤ n) : SumsFit p r reads := by
  induction reads generalizing r with
  | nil => trivial
  | cons bytes reads ih =>
    have hb := hreads bytes List.mem_cons_self
    have hused := r.used.le_size
    refine ⟨by simp only [Buffer.offset]; omega, fun o _ _ => ?_⟩
    exact ih fun bs hbs => hreads bs (List.mem_cons_of_mem _ hbs)

theorem SumsFit.feed_bytes {reads : List (List UInt8)} (hn : n < s32Bound)
    (hreads : ∀ bytes ∈ reads, bytes.length ≤ n) {r : RecvSide n} (hr : r.worked.data = [])
    (h : SumsFit p r reads) :
    ∃ o, feed p r reads = some o ∧
      (o.ok = true → o.packets.flatten ++ o.side.used.data = r.used.data ++ reads.flatten ∧
        o.side.worked.data = []) := by
  induction reads generalizing r with
  | nil => exact ⟨_, rfl, fun _ => ⟨by simp, hr⟩⟩
  | cons bytes reads ih =>
    obtain ⟨o, ho, hbytes⟩ := processPackets_bytes (p := p) hn hr
      (hreads bytes List.mem_cons_self) h.1
    rw [feed, ho, Option.bind_some]
    by_cases hok : o.ok = true
    · obtain ⟨hdata, hworked⟩ := hbytes hok
      obtain ⟨o', ho', hbytes'⟩ := ih (fun bs hbs => hreads bs (List.mem_cons_of_mem _ hbs))
        hworked (h.2 o ho hok)
      refine ⟨o'.after o.packets, by rw [if_pos hok, ho', Option.map_some], fun hok' => ?_⟩
      obtain ⟨hdata', hworked'⟩ := hbytes' hok'
      refine ⟨?_, hworked'⟩
      rw [Outcome.after_packets, Outcome.after_side, List.flatten_append, List.append_assoc,
        hdata', ← List.append_assoc, hdata, List.append_assoc, List.flatten_cons]
    · exact ⟨o, by rw [if_neg hok], fun hok' => absurd hok' hok⟩

/-- A sum that is no `s32` is seen at the first of them. -/
theorem sumsFit_of_feed {reads : List (List UInt8)} (hn : n < s32Bound)
    (hreads : ∀ bytes ∈ reads, bytes.length ≤ n) {r : RecvSide n} (hr : r.worked.data = [])
    (h : ∀ k, feed p r (reads.take k) ≠ none) : SumsFit p r reads := by
  induction reads generalizing r with
  | nil => trivial
  | cons bytes reads ih =>
    have hb := hreads bytes List.mem_cons_self
    have hsum : r.used.offset + bytes.length < s32Bound := by
      by_contra hsum
      refine h 1 ?_
      rw [List.take_succ_cons, feed, processPackets_wraps hn hr hb (by omega), Option.bind_none]
    refine ⟨hsum, fun o ho hok => ?_⟩
    obtain ⟨o', ho', hbytes⟩ := processPackets_bytes (p := p) hn hr hb hsum
    rw [ho'] at ho
    cases ho
    refine ih (fun bs hbs => hreads bs (List.mem_cons_of_mem _ hbs)) (hbytes hok).2 fun k hk => ?_
    refine h (k + 1) ?_
    rw [List.take_succ_cons, feed, ho', Option.bind_some, if_pos hok, hk, Option.map_none]

end RecvSide

/-! ## Any run of a connection -/

/-- Whatever a session does while it is in `OnRecv`, and whatever the worker does meanwhile,
the bytes read are those handed on and those in the two buffers. -/
theorem Reachable.reassembled {cfg : Config} {w : World cfg} (h : Reachable w)
    (hok : w.trace.any Obs.rejected = false) :
    delivered w.trace ++ w.recvView.pending ++ w.recv.worked.data = published w.trace := by
  have hinv : w.recvView.Reassembled cfg.parser := h.invariant_with
    (I := fun w => w.recvView.Reassembled cfg.parser) (J := Accounts false false)
    (fun _ hr => Reachable.accounts hr) (streamed_init cfg).reassembled
    (fun _ _ _ _ hacc ih hs => ih.step (hacc.recvView_step hs))
  obtain ⟨_, hpublished, hprocessed, hdelivered⟩ := w.recvView_streams
  have hrejected : w.recvView.trace.any Obs.rejected = false :=
    (any_filter_of (fun o ho => by cases o <;> first | rfl | cases ho) _).trans hok
  have hparsed := (hinv.parsed hrejected).1
  have htaken := hinv.taken
  rw [hdelivered, hprocessed] at hparsed
  rw [hpublished, hprocessed] at htaken
  rw [hparsed, htaken]
  rfl

/-- **Reassembly.** The loop of `ProcessPacket` ends from wherever it is. After any number of
reads, all of which `ProcessPacket` has taken, the packets and what the using buffer still
holds are the bytes read, exactly where no sum has left the range of an `s32`. -/
theorem reads_reassembled (cfg : Config) (reads : List (List UInt8))
    (hreads : ∀ bytes ∈ reads, bytes.length ≤ cfg.recvSize) :
    (∀ bytes, Logic.Harbor.parsePacket bytes ≤ bytes.length) ∧
    (∀ pos (r : RecvSide cfg.recvSize) o,
      r.Loop cfg.parser pos o ↔ o = r.packetLoop cfg.parser r.used.offset pos) ∧
    (∀ w : World cfg, Reachable w → w.trace.any Obs.rejected = false →
      delivered w.trace ++ w.recvView.pending ++ w.recv.worked.data = published w.trace) ∧
    (RecvSide.SumsFit cfg.parser (.start cfg.recvSize) reads ↔
      ∀ k, ∃ o, RecvSide.feed cfg.parser (.start cfg.recvSize) (reads.take k) = some o ∧
        (o.ok = true → o.packets.flatten ++ o.side.used.data = (reads.take k).flatten ∧
          o.side.used.offset ≤ cfg.recvSize ∧ o.side.worked.offset = 0)) := by
  refine ⟨Logic.Harbor.packetParser.le_length, fun _ _ _ => RecvSide.loop_iff,
    fun _ hw hok => hw.reassembled hok, ?_, ?_⟩
  · intro hsums k
    have htake : ∀ bytes ∈ reads.take k, bytes.length ≤ cfg.recvSize :=
      fun bytes hb => hreads bytes (List.mem_of_mem_take hb)
    obtain ⟨o, ho, hbytes⟩ := (hsums.take k).feed_bytes cfg.recv_lt htake rfl
    refine ⟨o, ho, fun hok => ?_⟩
    obtain ⟨hdata, hworked⟩ := hbytes hok
    exact ⟨hdata, o.side.used.le_size, Buffer.offset_eq_zero.mpr hworked⟩
  · intro h
    refine RecvSide.sumsFit_of_feed cfg.recv_lt hreads rfl fun k hnone => ?_
    obtain ⟨o, ho, _⟩ := h k
    rw [hnone] at ho
    cases ho

/-- A frame in two pieces, and the beginning of the next. -/
theorem reads_reassembled_small : ∃ o, RecvSide.feed Config.small.parser
    (.start Config.small.recvSize) [[1, 0, 0, 0, 9], [0, 0, 0, 7, 1, 0]] = some o ∧
      o.packets = [[1, 0, 0, 0, 9, 0, 0, 0, 7]] ∧
      o.packets.flatten ++ o.side.used.data = [1, 0, 0, 0, 9, 0, 0, 0, 7, 1, 0] := by
  have hreads : ∀ bytes ∈ ([[1, 0, 0, 0, 9], [0, 0, 0, 7, 1, 0]] : List (List UInt8)),
      bytes.length ≤ Config.small.recvSize := by decide
  have hsums := RecvSide.sumsFit_of_small (p := Config.small.parser)
    (r := .start Config.small.recvSize) (by decide) hreads
  obtain ⟨o, ho, hbytes⟩ := (reads_reassembled .small _ hreads).2.2.2.mp hsums 2
  have hrun : RecvSide.feed Config.small.parser (.start Config.small.recvSize)
      [[1, 0, 0, 0, 9], [0, 0, 0, 7, 1, 0]] =
        some ⟨true, [[1, 0, 0, 0, 9, 0, 0, 0, 7]], .recvNone, .empty, ⟨[1, 0], by decide⟩⟩ := by
    decide
  cases ho.symm.trans hrun
  exact ⟨_, hrun, rfl, (hbytes rfl).1⟩

/-! ## A sum that wraps -/

/-- The header of a frame as long as an `s32` can say. -/
def longHeader : List UInt8 := [1, 0, 0, 0, 255, 255, 255, 127]

theorem parsePacket_long {rest : List UInt8} (h : longHeader.length + rest.length < s32Bound - 1) :
    Logic.Harbor.parsePacket (longHeader ++ rest) = 0 := by
  have hlen : Logic.HarborHeader.len (longHeader ++ rest) = (s32Bound - 1 : Nat) :=
    (Logic.readS32_append rest (by decide)).trans (by decide)
  rw [Logic.Harbor.parsePacket, hlen, List.length_append]
  split
  · rw [if_pos (by omega)]
  · rfl

/-- A parser that waits for more leaves all that was read in the using buffer. -/
theorem RecvSide.feed_waits {n : Nat} {p : PacketParser} {bytes : List UInt8} (hn : n < s32Bound)
    (hne : bytes ≠ []) (hb : bytes.length ≤ n) (hp : p.parsePacket bytes = 0) :
    ∃ r, r.used.data = bytes ∧ r.worked.data = [] ∧
      ∀ reads, feed p (.start n) (bytes :: reads) = feed p r reads := by
  obtain ⟨b, hdata, hrun⟩ := processPackets_run (p := p) (r := .start n) rfl hne hn
    (by simpa [start] using hb)
  have hall : b.data = bytes := hdata
  have hparse : RecvSide.parse p 0 { (start n).read bytes with used := b, worked := .empty } =
      (.done true, { (start n).read bytes with used := b.drop 0, worked := .empty }) := by
    simp [parse, hall, hp, Buffer.offset]
  refine ⟨{ (start n).read bytes with used := b.drop 0, worked := .empty }, ?_, rfl, ?_⟩
  · rw [Buffer.data_drop, List.drop_zero, hall]
  · intro reads
    rw [feed, hrun, Option.bind_some, packetLoop, hparse]
    exact Option.map_id'

/-- Two reads of `2^30` bytes each, the beginning of one long frame, into a buffer of
`2^31 - 1`: the first is taken over. At the second the sum wraps below zero, so that the check
lets the copy pass, which ends a byte behind the buffer. -/
theorem second_read_overruns :
    ∃ r, RecvSide.feed Logic.Harbor.packetParser (.start (s32Bound - 1))
        [longHeader ++ List.replicate (2 ^ 30 - 8) 0] = some ⟨true, [], r⟩ ∧
      r.used.exceeds (2 ^ 30) = false ∧ s32Bound - 1 < r.used.offset + 2 ^ 30 ∧
      s32 (r.used.offset + 2 ^ 30 : Nat) < 0 ∧
      RecvSide.feed Logic.Harbor.packetParser (.start (s32Bound - 1))
        [longHeader ++ List.replicate (2 ^ 30 - 8) 0, List.replicate (2 ^ 30) 0] = none := by
  generalize hrest : List.replicate (2 ^ 30 - 8) (0 : UInt8) = rest
  generalize hsecond : List.replicate (2 ^ 30) (0 : UInt8) = second
  have hrest : rest.length = 2 ^ 30 - 8 := by rw [← hrest, List.length_replicate]
  have hsecond : second.length = 2 ^ 30 := by rw [← hsecond, List.length_replicate]
  have hlen : (longHeader ++ rest).length = 2 ^ 30 := by
    rw [List.length_append, hrest]
    rfl
  have hn : s32Bound - 1 < s32Bound := by decide
  obtain ⟨r, hdata, hworked, hr⟩ := RecvSide.feed_waits (p := Logic.Harbor.packetParser) hn
    (List.append_ne_nil_of_left_ne_nil (by decide) rest)
    (by rw [hlen]; decide) (parsePacket_long (by rw [hrest]; decide))
  have hoff : r.used.offset = 2 ^ 30 := by rw [Buffer.offset, hdata, hlen]
  have hneg : s32 (r.used.offset + 2 ^ 30 : Nat) < 0 := by
    rw [hoff]
    decide
  refine ⟨r, hr [], ?_, by rw [hoff]; decide, hneg, ?_⟩
  · refine decide_eq_false ?_
    omega
  · have hwraps := RecvSide.processPackets_wraps (p := Logic.Harbor.packetParser) hn hworked
      (show second.length ≤ s32Bound - 1 by rw [hsecond]; decide)
      (by rw [hoff, hsecond]; decide)
    rw [hr, RecvSide.feed, hwraps, Option.bind_none]

end HyperNet.Net
