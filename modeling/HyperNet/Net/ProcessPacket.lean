import HyperNet.Core.Framing
import HyperNet.Net.Steps

/-! # ProcessPacket as one call

A session whose `OnRecv` returns leaves the buffers of the connection alone, whatever
else it does. The loop of `ProcessPacket` can then be read as one function of the
buffers (`packetLoop`), which is what the steps of `World` come to
(`runPacket_returns`), and a connection as a function of what its worker reads
(`feed`). -/
namespace HyperNet.Net
open HyperNet.Api HyperNet.Public HyperNet.Core.Framing HyperNet.Core.Transition

/-- What a call of `ProcessPacket` returns, hands to the session and leaves. -/
structure Outcome (n : Nat) where
  ok : Bool
  packets : List (List UInt8)
  side : RecvSide n
  deriving DecidableEq

namespace Outcome
variable {n : Nat}

/-- More packets, handed on before. -/
def after (o : Outcome n) (packets : List (List UInt8)) : Outcome n :=
  { o with packets := packets ++ o.packets }

@[simp] theorem after_ok (o : Outcome n) (ps : List (List UInt8)) : (o.after ps).ok = o.ok := rfl

@[simp] theorem after_packets (o : Outcome n) (ps : List (List UInt8)) :
    (o.after ps).packets = ps ++ o.packets := rfl

@[simp] theorem after_side (o : Outcome n) (ps : List (List UInt8)) :
    (o.after ps).side = o.side := rfl

/-- Every call has returned true, and these packets have been handed on. -/
def Accepts (o : Option (Outcome n)) (packets : List (List UInt8)) : Prop :=
  ∃ side, o = some ⟨true, packets, side⟩

end Outcome

namespace RecvSide
variable {n : Nat}

/-- The connection before the first byte. -/
def start (n : Nat) : RecvSide n := ⟨.recvNone, .empty, .empty⟩

/-- The body of the loop: the session returns, and the loop goes on behind the packet. -/
def follow (loop : Nat → RecvSide n → Outcome n) : Parsing × RecvSide n → Outcome n
  | (.done ok, r) => ⟨ok, [], r⟩
  | (.onRecv pos u, r) => (loop (pos + u) r).after [(r.used.data.drop pos).take u]

/-- The loop of `ProcessPacket` from `pos` on. Each turn takes a byte at least, so the
first argument need not be more than the bytes left; with none left the loop ends. -/
def packetLoop (p : PacketParser) : Nat → Nat → RecvSide n → Outcome n
  | 0, pos, r => ⟨true, [], { r with used := r.used.drop pos }⟩
  | k + 1, pos, r => follow (packetLoop p k) (r.parse p pos)

/-- `ProcessPacket`. -/
def processPackets (p : PacketParser) (r : RecvSide n) : Option (Outcome n) :=
  (r.processPacket p).map fun o => follow (packetLoop p o.2.used.offset) o

/-- `::recv` has these bytes and no more for now. -/
def answers : List UInt8 → List RecvRes
  | [] => []
  | b :: bs => [.data b bs]

/-- The worker has run `OnRecv` and published what it read. -/
def read (r : RecvSide n) (bytes : List UInt8) : RecvSide n :=
  { r with worked := (onRecv r.worked (answers bytes)).2.1 }

/-- `ProcessPacket` after each of some reads, up to the first call that returns false. -/
def feed (p : PacketParser) : RecvSide n → List (List UInt8) → Option (Outcome n)
  | r, [] => some ⟨true, [], r⟩
  | r, bytes :: reads =>
    ((r.read bytes).processPackets p).bind fun o =>
      if o.ok then (feed p o.side reads).map (Outcome.after · o.packets) else some o

/-! ## The steps of the main thread are one call -/

/-- With nothing left to parse, `parse` ends the loop. -/
theorem parse_end (p : PacketParser) {pos : Nat} {r : RecvSide n} (h : r.used.offset ≤ pos) :
    r.parse p pos = (.done true, { r with used := r.used.drop pos }) := by
  simp [parse, Nat.not_lt.mpr h]

/-- Where the loop starts it still has the whole buffer, and otherwise it has ended. -/
theorem follow_parse (p : PacketParser) (pos : Nat) (r : RecvSide n) :
    follow (packetLoop p (r.parse p pos).2.used.offset) (r.parse p pos) =
      packetLoop p (r.used.offset + 1) pos r := by
  simp only [packetLoop]
  have ho := parse_cases p pos r
  generalize r.parse p pos = o at ho ⊢
  cases ho <;> rfl

end RecvSide

namespace World
variable {cfg : Config}

/-- What follows `ProcessPacket`, once the session has been handed all its packets. -/
def endPackets (again : Bool) (o : Outcome cfg.recvSize) (w : World cfg) : World cfg :=
  (endPacket again o.ok { w with
    recv := o.side
    trace := w.trace ++ o.packets.map Obs.onRecv ++ [.packetsDone o.ok] }).releaseCheck

/-- A session that only returns takes the main thread through `ProcessPacket` in one
`ret` for each packet. -/
theorem runPacket_returns (again : Bool) (w : World cfg) (k pos : Nat)
    (r : RecvSide cfg.recvSize) (h : r.used.offset ≤ pos + k) :
    (system cfg).exec (fun _ _ => True) (w.runPacket again (r.parse cfg.parser pos))
        (List.replicate (r.packetLoop cfg.parser k pos).packets.length .ret) =
      some (w.endPackets again (r.packetLoop cfg.parser k pos)) := by
  induction k generalizing pos w with
  | zero =>
    rw [RecvSide.parse_end cfg.parser (by omega)]
    simp [RecvSide.packetLoop, System.exec, runPacket, endPackets]
  | succ k ih =>
    simp only [RecvSide.packetLoop]
    have ho := RecvSide.parse_cases cfg.parser pos r
    generalize r.parse cfg.parser pos = o at ho ⊢
    cases ho with
    | rest | bad => simp [RecvSide.follow, System.exec, runPacket, endPackets]
    | @packet u hu hp hl =>
      have hnext := ih (w.log (.onRecv ((r.used.data.drop pos).take u))) (pos + u) (by omega)
      simp only [RecvSide.follow, Outcome.after_packets, List.length_append, List.length_singleton,
        Nat.add_comm 1, List.replicate_succ, System.exec, if_true]
      show (system cfg).exec _ ((w.log _).runPacket again (r.parse cfg.parser (pos + u))) _ = _
      rw [hnext]
      simp [endPackets, log]

/-- The same from the call of `ProcessPacket` on. -/
theorem processPacket_returns (again : Bool) (w : World cfg) {r : RecvSide cfg.recvSize}
    {o : Parsing × RecvSide cfg.recvSize} {out : Outcome cfg.recvSize}
    (ho : r.processPacket cfg.parser = some o)
    (hout : r.processPackets cfg.parser = some out) :
    (system cfg).exec (fun _ _ => True) (w.runPacket again o)
        (List.replicate out.packets.length .ret) = some (w.endPackets again out) := by
  simp only [RecvSide.processPackets, ho, Option.map_some, Option.some.injEq] at hout
  subst hout
  cases RecvSide.processPacket_cases ho with
  | nothing | full => simp [RecvSide.follow, System.exec, runPacket, endPackets]
  | @parse b hw hx hb =>
    rw [RecvSide.follow_parse]
    exact runPacket_returns again w (b.offset + 1) 0 _ (by simp)

end World

/-! ## Whole packets -/

/-- The parser takes each of the packets for one packet, whatever follows it, and waits
for more as long as it is shown only the beginning. -/
structure Carries (p : PacketParser) (items : List (List UInt8)) : Prop where
  ne_nil : ∀ f ∈ items, f ≠ []
  packet : ∀ f ∈ items, ∀ rest, p.parsePacket (f ++ rest) = f.length
  partial' : ∀ f ∈ items, ∀ k, 0 < k → k < f.length → p.parsePacket (f.take k) = 0

theorem Carries.mono {p : PacketParser} {items items' : List (List UInt8)}
    (hc : Carries p items) (h : ∀ f ∈ items', f ∈ items) : Carries p items' :=
  ⟨fun f hf => hc.ne_nil f (h f hf), fun f hf => hc.packet f (h f hf),
    fun f hf => hc.partial' f (h f hf)⟩

namespace RecvSide
variable {n : Nat} {p : PacketParser}

/-- What `OnRecv` reads is in the working buffer. -/
theorem read_worked {r : RecvSide n} {bytes : List UInt8} (hr : r.worked.data = [])
    (hb : bytes.length ≤ n) : (r.read bytes).worked.data = bytes := by
  cases bytes with
  | nil => simp [read, answers, onRecv, recvLoop, hr]
  | cons b bs =>
    simp only [List.length_cons] at hb
    have hn : 0 < n := by omega
    simp [read, answers, onRecv, recvLoop, Buffer.recv, Buffer.offset, hr, hn,
      List.take_of_length_le, hb]

/-- A turn of the loop at the beginning of a packet that is all there. -/
theorem parse_whole {items : List (List UInt8)} (hc : Carries p items) {f rest : List UInt8}
    (hf : f ∈ items) {pos : Nat} {r : RecvSide n} (hd : r.used.data.drop pos = f ++ rest) :
    r.parse p pos = (.onRecv pos f.length, r) := by
  have hpos : 0 < f.length := List.length_pos_iff.mpr (hc.ne_nil f hf)
  have hlt : pos < r.used.offset := by
    have := congrArg List.length hd
    simp only [List.length_drop, List.length_append] at this
    simp only [Buffer.offset]
    omega
  simp only [parse, hlt, if_true, hd, hc.packet f hf rest]
  rw [if_neg (by omega), if_pos (by omega), Int.toNat_natCast]

/-- A turn of the loop at the beginning of a packet of which more is to come. -/
theorem parse_partial {items : List (List UInt8)} (hc : Carries p items) {f : List UInt8}
    (hf : f ∈ items) {pos k : Nat} {r : RecvSide n} (hk : k < f.length)
    (hd : r.used.data.drop pos = f.take k) :
    r.parse p pos = (.done true, { r with used := r.used.drop pos }) := by
  by_cases h0 : k = 0
  · refine parse_end p ?_
    simpa [h0, Buffer.offset] using hd
  · have hlt : pos < r.used.offset := by
      have := congrArg List.length hd
      simp only [List.length_drop, List.length_take] at this
      simp only [Buffer.offset]
      omega
    simp only [parse, hlt, if_true, hd, hc.partial' f hf k (by omega) hk]

/-- The loop hands on the packets that are all there, and keeps what is left. -/
theorem packetLoop_whole {items : List (List UInt8)} (hc : Carries p items) {m k pos : Nat}
    {r : RecvSide n} (hd : r.used.data.drop pos = items.flatten.take m)
    (hm : m ≤ items.flatten.length) (hk : m ≤ k) :
    packetLoop p k pos r = ⟨true, whole items m,
      { r with used := r.used.drop (pos + (whole items m).flatten.length) }⟩ := by
  induction k generalizing items m pos with
  | zero =>
    obtain rfl : m = 0 := by omega
    have hw : whole items 0 = [] := by
      refine (of_leftover_lt fun f hf => ?_).1
      exact List.length_pos_iff.mpr (hc.ne_nil f (List.mem_of_mem_head? hf))
    simp [packetLoop, hw]
  | succ k ih =>
    cases items with
    | nil =>
      have hend := parse_end p (show r.used.offset ≤ pos by simpa [Buffer.offset] using hd)
      simp [packetLoop, hend, follow, whole]
    | cons f fs =>
      by_cases hf : f.length ≤ m
      · have hrest : (f :: fs).flatten.take m = f ++ fs.flatten.take (m - f.length) := by
          rw [List.flatten_cons, List.take_append, List.take_of_length_le hf]
        have hpos : 0 < f.length := List.length_pos_iff.mpr (hc.ne_nil f List.mem_cons_self)
        have htail : Carries p fs := hc.mono fun g hg => List.mem_cons_of_mem f hg
        have hd' : r.used.data.drop (pos + f.length) = fs.flatten.take (m - f.length) := by
          rw [← List.drop_drop, hd, hrest, List.drop_left]
        simp only [List.flatten_cons, List.length_append] at hm
        simp only [packetLoop, parse_whole hc List.mem_cons_self (hd.trans hrest), follow,
          ih htail hd' (by omega) (by omega), hd, hrest, List.take_left, whole, hf, if_true]
        simp [Outcome.after, Nat.add_assoc]
      · have hrest : (f :: fs).flatten.take m = f.take m := by
          rw [List.flatten_cons, List.take_append, Nat.sub_eq_zero_of_le (by omega)]
          simp
        simp [packetLoop, parse_partial hc List.mem_cons_self (by omega) (hd.trans hrest), follow,
          whole, hf]

/-! ## Reads that cut a stream of packets -/

/-- What has come of a stream of packets that are still to be handed on: the beginning of the
first of them. -/
structure Holds (r : RecvSide n) (items : List (List UInt8)) (k : Nat) : Prop where
  worked : r.worked.data = []
  used : r.used.data = items.flatten.take k
  lt : ∀ f ∈ items.head?, k < f.length

theorem Holds.offset {r : RecvSide n} {items : List (List UInt8)} {k : Nat} (h : r.Holds items k)
    (hk : k ≤ items.flatten.length) : r.used.offset = k := by
  rw [Buffer.offset, h.used, List.length_take, Nat.min_eq_left hk]

/-- A read that does not fit behind what is left makes `ProcessPacket` return false, or copy
past the end of its buffer. -/
theorem processPackets_full {r : RecvSide n} {bytes : List UInt8} (hr : r.worked.data = [])
    (hb : bytes.length ≤ n) (hx : n < r.used.offset + bytes.length) :
    ∀ o ∈ (r.read bytes).processPackets p, o.ok = false := by
  intro o ho
  have hdata := read_worked hr hb
  have hused : (r.read bytes).used = r.used := rfl
  obtain ⟨o', ho', rfl⟩ := Option.map_eq_some_iff.mp ho
  have hle := r.used.le_size
  cases processPacket_cases ho' with
  | nothing hw =>
    rw [hdata] at hw
    simp only [hw, List.length_nil, Buffer.offset] at hx
    omega
  | full => rfl
  | @parse b hw _ happ =>
    have hb' := b.le_size
    rw [happ, hused, hdata, List.length_append] at hb'
    simp only [Buffer.offset] at hx
    omega

/-- A read that fits is taken over, and the loop runs on what is then in the buffer. -/
theorem processPackets_run {r : RecvSide n} {bytes : List UInt8} (hr : r.worked.data = [])
    (hne : bytes ≠ []) (hn : n < s32Bound) (hfit : r.used.offset + bytes.length ≤ n) :
    ∃ b : Buffer n, b.data = r.used.data ++ bytes ∧ (r.read bytes).processPackets p =
      some (packetLoop p (b.offset + 1) 0 { r.read bytes with used := b, worked := .empty }) := by
  have hle : bytes.length ≤ n := by omega
  have hdata := read_worked hr hle
  have hworked : (r.read bytes).worked.offset = bytes.length := by rw [Buffer.offset, hdata]
  have hfull : (r.read bytes).used.exceeds (r.read bytes).worked.offset = false := by
    have hsum : r.used.offset + bytes.length < s32Bound := by omega
    rw [hworked, Bool.eq_false_iff, ne_eq]
    exact fun hx => Nat.not_lt.mpr hfit ((Buffer.exceeds_iff hsum).mp hx)
  obtain ⟨b, happ⟩ : ∃ b, (r.read bytes).used.append? (r.read bytes).worked.data = some b := by
    refine ⟨⟨r.used.data ++ bytes, ?_⟩, Buffer.append?_eq_some.mpr (by rw [hdata]; rfl)⟩
    simpa [Buffer.offset] using hfit
  have hpos : 0 < (r.read bytes).worked.offset := by
    rw [hworked]
    exact List.length_pos_iff.mpr hne
  refine ⟨b, ?_, ?_⟩
  · rw [Buffer.append?_eq_some.mp happ, hdata]
    rfl
  · rw [processPackets, processPacket, if_pos hpos, hfull, happ]
    simp only [Bool.false_eq_true, if_false, Option.map_some]
    rw [follow_parse]

/-- A read that fits is handed on as far as it completes packets. -/
theorem processPackets_fits {r : RecvSide n} {items : List (List UInt8)} {bytes : List UInt8}
    {k : Nat} (hc : Carries p items) (h : r.Holds items k) (hn : n < s32Bound)
    (hk : k + bytes.length ≤ items.flatten.length) (hne : bytes ≠ [])
    (hb : bytes = (items.flatten.drop k).take bytes.length) (hfit : k + bytes.length ≤ n) :
    ∃ o, (r.read bytes).processPackets p = some o ∧ o.ok = true ∧
      o.packets = whole items (k + bytes.length) ∧
      o.side.Holds (later items (k + bytes.length)) (leftover items (k + bytes.length)) := by
  obtain ⟨b, hbdata, hrun⟩ := processPackets_run (p := p) h.worked hne hn
    (by rwa [h.offset (by omega)])
  have hall : b.data = items.flatten.take (k + bytes.length) := by
    rw [hbdata, List.take_add, ← hb, h.used]
  have hturns : k + bytes.length ≤ b.offset + 1 := by
    rw [Buffer.offset, hall, List.length_take]
    omega
  have hdrop : ({ r.read bytes with used := b, worked := .empty } : RecvSide n).used.data.drop 0 =
      items.flatten.take (k + bytes.length) := hall
  have hloop := packetLoop_whole hc hdrop hk hturns
  refine ⟨_, hrun.trans (congrArg some hloop), rfl, rfl, ?_⟩
  refine ⟨rfl, ?_, leftover_lt items _⟩
  simp only [Buffer.data_drop, hall, Nat.zero_add]
  rw [take_flatten, List.drop_left]

/-- One read of a stream of packets that fits, and what is still to come. -/
theorem processPackets_step {r : RecvSide n} {items reads : List (List UInt8)}
    {bytes : List UInt8} {k : Nat} (hc : Carries p items) (h : r.Holds items k)
    (hn : n < s32Bound) (hreads : (bytes :: reads).flatten <+: items.flatten.drop k)
    (hne : bytes ≠ []) (hfit : k + bytes.length ≤ n) :
    ∃ o, (r.read bytes).processPackets p = some o ∧ o.ok = true ∧
      o.packets = whole items (k + bytes.length) ∧
      o.side.Holds (later items (k + bytes.length)) (leftover items (k + bytes.length)) ∧
      leftover items (k + bytes.length) ≤ (later items (k + bytes.length)).flatten.length ∧
      reads.flatten <+: (later items (k + bytes.length)).flatten.drop
        (leftover items (k + bytes.length)) := by
  rw [List.flatten_cons] at hreads
  obtain ⟨tail, htail⟩ := hreads
  rw [List.append_assoc] at htail
  have hlen := congrArg List.length htail
  simp only [List.length_append, List.length_drop] at hlen
  have hpos := List.length_pos_iff.mpr hne
  have hbytes : bytes = (items.flatten.drop k).take bytes.length := by
    rw [← htail, List.take_left]
  obtain ⟨o, ho, hok, hpackets, hside⟩ := processPackets_fits hc h hn (by omega) hne hbytes hfit
  refine ⟨o, ho, hok, hpackets, hside, leftover_le (by omega), ?_⟩
  rw [← drop_flatten, ← List.drop_drop, ← htail, List.drop_left]
  exact List.prefix_append _ _

/-- **What a connection does with a stream of packets that comes in pieces.** No call of
`ProcessPacket` returns false as long as each read fits behind what is left over of the reads
before it, and only so; then the session has been handed the packets that have come whole. -/
theorem feed_accepts {r : RecvSide n} {items reads : List (List UInt8)} {k : Nat}
    (hc : Carries p items) (h : r.Holds items k) (hn : n < s32Bound)
    (hk : k ≤ items.flatten.length) (hreads : reads.flatten <+: items.flatten.drop k)
    (hsize : ∀ bytes ∈ reads, bytes ≠ [] ∧ bytes.length ≤ n) (packets : List (List UInt8)) :
    Outcome.Accepts (feed p r reads) packets ↔
      Fits n items k reads ∧ packets = whole items (k + reads.flatten.length) := by
  induction reads generalizing r items k packets with
  | nil =>
    have hw : whole items (k + ([] : List (List UInt8)).flatten.length) = [] :=
      (of_leftover_lt h.lt).1
    rw [hw]
    constructor
    · rintro ⟨side, ho⟩
      cases ho
      exact ⟨trivial, rfl⟩
    · rintro ⟨_, rfl⟩
      exact ⟨r, rfl⟩
  | cons bytes reads ih =>
    obtain ⟨hne, hb⟩ := hsize bytes List.mem_cons_self
    have hleft : leftover items k = k := (of_leftover_lt h.lt).2.2
    rw [Fits.cons, hleft]
    by_cases hfit : k + bytes.length ≤ n
    · obtain ⟨o, ho, hok, hpackets, hside, hle, hrest⟩ :=
        processPackets_step hc h hn hreads hne hfit
      have hnext := ih (hc.mono (mem_of_mem_later (k + bytes.length))) hside hle hrest
        (fun bs hbs => hsize bs (List.mem_cons_of_mem _ hbs))
      have hwhole := whole_add items (k + bytes.length) reads.flatten.length
      rw [Nat.add_assoc] at hwhole
      have hfits := Fits.later n items (k + bytes.length) 0 reads
      rw [Nat.add_zero, Nat.add_zero] at hfits
      simp only [feed, ho, Option.bind_some, hok, if_true, hpackets, hfits, hfit, true_and,
        List.flatten_cons, List.length_append, hwhole]
      constructor
      · rintro ⟨side, he⟩
        obtain ⟨⟨ok, ps, s⟩, ho', he⟩ := Option.map_eq_some_iff.mp he
        cases he
        obtain ⟨hf, hp⟩ := (hnext ps).mp ⟨s, ho'⟩
        exact ⟨hf, congrArg _ hp⟩
      · rintro ⟨hf, rfl⟩
        obtain ⟨s, ho'⟩ := (hnext _).mpr ⟨hf, rfl⟩
        exact ⟨s, by rw [ho']; rfl⟩
    · refine iff_of_false ?_ (fun hp => hfit hp.1.1)
      rintro ⟨side, ho⟩
      obtain ⟨o, hproc, ho⟩ := Option.bind_eq_some_iff.mp ho
      have hoff := h.offset hk
      rw [processPackets_full h.worked hb (by omega) o hproc] at ho
      cases ho
      have := processPackets_full h.worked hb (by omega) _ hproc
      cases this

/-- `worked.offset + used.offset > used.size` holds at no `ProcessPacket` of these reads. -/
def HasRoom (p : PacketParser) : RecvSide n → List (List UInt8) → Prop
  | _, [] => True
  | r, bytes :: reads => r.used.offset + bytes.length ≤ n ∧
      ∀ o ∈ (r.read bytes).processPackets p, HasRoom p o.side reads

instance HasRoom.decidable (p : PacketParser) :
    ∀ (reads : List (List UInt8)) (r : RecvSide n), Decidable (HasRoom p r reads)
  | [], _ => .isTrue trivial
  | _ :: reads, _ =>
    have := HasRoom.decidable p reads
    inferInstanceAs (Decidable (_ ∧ _))

/-- Where the packets are known, what is left over is known. -/
theorem hasRoom_iff_fits {r : RecvSide n} {items reads : List (List UInt8)} {k : Nat}
    (hc : Carries p items) (h : r.Holds items k) (hn : n < s32Bound)
    (hk : k ≤ items.flatten.length) (hreads : reads.flatten <+: items.flatten.drop k)
    (hne : ∀ bytes ∈ reads, bytes ≠ []) : HasRoom p r reads ↔ Fits n items k reads := by
  induction reads generalizing r items k with
  | nil => exact Iff.rfl
  | cons bytes reads ih =>
    have hleft : leftover items k = k := (of_leftover_lt h.lt).2.2
    rw [Fits.cons, hleft, HasRoom, h.offset hk]
    refine and_congr_right fun hfit => ?_
    have hstep := processPackets_step hc h hn hreads (hne bytes List.mem_cons_self) hfit
    obtain ⟨o, ho, -, -, hside, hle, hrest⟩ := hstep
    have hfits := Fits.later n items (k + bytes.length) 0 reads
    rw [Nat.add_zero, Nat.add_zero] at hfits
    simp only [ho, Option.mem_some_iff, forall_eq']
    rw [hfits]
    exact ih (hc.mono (mem_of_mem_later (k + bytes.length))) hside hle hrest
      fun bs hbs => hne bs (List.mem_cons_of_mem _ hbs)

end RecvSide

/-! ## Any bytes -/

/-- What a parser finds in some bytes: the packets, the bytes after them, and whether it
waits for more there. -/
structure Found where
  packets : List (List UInt8)
  rest : List UInt8
  more : Bool
  deriving DecidableEq

/-- The packets at the front of some bytes; there are no more of them than bytes. -/
def delimit (p : PacketParser) : Nat → List UInt8 → Found
  | 0, bytes => ⟨[], bytes, true⟩
  | k + 1, bytes =>
    if p.incomplete bytes then ⟨[], bytes, true⟩
    else if p.rejects bytes then ⟨[], bytes, false⟩
    else
      let u := (p.parsePacket bytes).toNat
      let found := delimit p k (bytes.drop u)
      { found with packets := bytes.take u :: found.packets }

/-- What a parser finds in the bytes of a buffer. -/
def found (p : PacketParser) (bytes : List UInt8) : Found := delimit p (bytes.length + 1) bytes

namespace RecvSide
variable {n : Nat} {p : PacketParser}

/-- A read that does not fit is refused, as long as the sum is an `s32`. -/
theorem processPackets_refused {r : RecvSide n} {bytes : List UInt8} (hr : r.worked.data = [])
    (hn : n < s32Bound) (hb : bytes.length ≤ n) (hx : n < r.used.offset + bytes.length) :
    (r.read bytes).processPackets p =
      if r.used.offset + bytes.length < s32Bound then some ⟨false, [], r.read bytes⟩
      else none := by
  have hdata := read_worked hr hb
  have hne : bytes ≠ [] := by
    intro hnil
    have hle := r.used.le_size
    simp only [hnil, List.length_nil, Buffer.offset] at hx
    omega
  have hworked : (r.read bytes).worked.offset = bytes.length := by rw [Buffer.offset, hdata]
  have hpos : 0 < (r.read bytes).worked.offset := by
    rw [hworked]
    exact List.length_pos_iff.mpr hne
  rw [processPackets, processPacket, if_pos hpos, hworked]
  by_cases hsum : r.used.offset + bytes.length < s32Bound
  · have hfull : (r.read bytes).used.exceeds bytes.length = true := (Buffer.exceeds_iff hsum).mpr hx
    rw [hfull, if_pos hsum]
    rfl
  · have hle := r.used.le_size
    have hneg := s32_neg (k := r.used.offset + bytes.length) (by omega)
      (by simp only [Buffer.offset]; omega)
    have hfull : (r.read bytes).used.exceeds bytes.length = false := by
      refine decide_eq_false ?_
      show ¬ (n : Int) < s32 (r.used.offset + bytes.length : Nat)
      omega
    have hover : (r.read bytes).used.append? (r.read bytes).worked.data = none := by
      refine dif_neg ?_
      rw [hdata]
      exact Nat.not_le.mpr hx
    rw [hfull, hover, if_neg hsum]
    rfl

end RecvSide
end HyperNet.Net
