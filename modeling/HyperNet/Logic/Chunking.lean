import HyperNet.Net.ProcessPacket

/-! # How TCP cuts a stream of harbor frames

`OnRecv` fills the working buffer up to `recvSize` bytes, whatever `ProcessPacket` has
kept in the other buffer, which is no larger. A read that meets enough of an unfinished
frame there is refused together with the connection, though every frame of the stream is
valid. -/
namespace HyperNet.Logic
open HyperNet.Public HyperNet.Api HyperNet.Net HyperNet.Core.Framing

/-- A frame of a kind of its own length, long enough for `ParsePacket` to look at. -/
structure IsFrame (f : List UInt8) : Prop where
  size_lt : HarborHeader.size < f.length
  len : HarborHeader.len f = f.length

instance (f : List UInt8) : Decidable (IsFrame f) :=
  decidable_of_iff (HarborHeader.size < f.length ∧ HarborHeader.len f = f.length)
    ⟨fun h => ⟨h.1, h.2⟩, fun h => ⟨h.size_lt, h.len⟩⟩

/-- `ParsePacket` finds the frames of a stream. -/
theorem Harbor.carries {frames : List (List UInt8)} (h : ∀ f ∈ frames, IsFrame f) :
    Carries Harbor.packetParser frames := by
  refine ⟨?_, ?_, ?_⟩
  · intro f hf hnil
    have := (h f hf).size_lt
    simp [hnil] at this
  · intro f hf rest
    obtain ⟨hsize, hlen⟩ := h f hf
    have hread : HarborHeader.len (f ++ rest) = f.length := by
      rw [← hlen]
      exact readS32_append rest (Nat.le_of_lt hsize)
    show Harbor.parsePacket (f ++ rest) = f.length
    rw [Harbor.parsePacket, hread, List.length_append, if_pos (by omega), if_neg (by omega)]
  · intro f hf k _ hk
    obtain ⟨hsize, hlen⟩ := h f hf
    show Harbor.parsePacket (f.take k) = 0
    have htake : (f.take k).length = k := by rw [List.length_take]; omega
    by_cases h8 : HarborHeader.size < k
    · have hread : HarborHeader.len (f.take k) = f.length := by
        rw [← hlen]
        exact readS32_take (Nat.le_of_lt h8) (by omega)
      rw [Harbor.parsePacket, hread, htake, if_pos h8, if_pos (by omega)]
    · rw [Harbor.parsePacket, htake, if_neg h8]

/-- The stream comes in these reads of `OnRecv`. -/
structure IsCut (recvSize : Nat) (stream : List UInt8) (reads : List (List UInt8)) : Prop where
  flatten : reads.flatten = stream
  size : ∀ bytes ∈ reads, 0 < bytes.length ∧ bytes.length ≤ recvSize

/-- A harbor connection that has received nothing is fed these reads. -/
def Harbor.feed (recvSize : Nat) (reads : List (List UInt8)) : Option (Outcome recvSize) :=
  RecvSide.feed packetParser (.start recvSize) reads

/-- Before the first byte, all frames are to come. -/
theorem Harbor.holds_start {frames : List (List UInt8)} (hf : ∀ f ∈ frames, IsFrame f)
    (recvSize : Nat) : (RecvSide.start recvSize).Holds frames 0 := by
  refine ⟨rfl, by simp [RecvSide.start], ?_⟩
  intro f hmem
  exact Nat.lt_of_le_of_lt (Nat.zero_le _) (hf f (List.mem_of_mem_head? hmem)).size_lt

/-- **What a harbor connection does with a stream of frames.** -/
theorem Harbor.feed_accepts {recvSize : Nat} (hn : recvSize < s32Bound)
    {frames reads : List (List UInt8)} (hf : ∀ f ∈ frames, IsFrame f)
    (hcut : IsCut recvSize frames.flatten reads) (packets : List (List UInt8)) :
    Outcome.Accepts (Harbor.feed recvSize reads) packets ↔
      Fits recvSize frames 0 reads ∧ packets = frames := by
  have hstart := Harbor.holds_start hf recvSize
  have h := RecvSide.feed_accepts (Harbor.carries hf) hstart hn (Nat.zero_le _)
    ⟨[], by rw [List.append_nil, hcut.flatten, List.drop_zero]⟩
    (fun bytes hb => ⟨List.length_pos_iff.mp (hcut.size bytes hb).1, (hcut.size bytes hb).2⟩)
    packets
  rwa [Nat.zero_add, hcut.flatten, whole_all] at h

/-- The capacity check of `ProcessPacket`, in terms of the frames. -/
theorem Harbor.hasRoom_iff_fits {recvSize : Nat} (hn : recvSize < s32Bound)
    {frames reads : List (List UInt8)} (hf : ∀ f ∈ frames, IsFrame f)
    (hcut : IsCut recvSize frames.flatten reads) :
    RecvSide.HasRoom packetParser (.start recvSize) reads ↔ Fits recvSize frames 0 reads :=
  RecvSide.hasRoom_iff_fits (Harbor.carries hf) (Harbor.holds_start hf recvSize) hn
    (Nat.zero_le _) ⟨[], by rw [List.append_nil, hcut.flatten, List.drop_zero]⟩
    fun bytes hb => List.length_pos_iff.mp (hcut.size bytes hb).1

/-- Two cuts of a stream come to the same, with true from every `ProcessPacket`. -/
def Harbor.SameOutcome (recvSize : Nat) (cut₁ cut₂ : List (List UInt8)) : Prop :=
  ∃ packets, Outcome.Accepts (Harbor.feed recvSize cut₁) packets ∧
    Outcome.Accepts (Harbor.feed recvSize cut₂) packets

/-- **Chunking.** Two cuts of one stream of frames come to the same exactly where, in both,
each read fits into a receive buffer behind the bytes of an unfinished frame that the reads
before it have left. -/
theorem chunking_independent {recvSize : Nat} (hn : recvSize < s32Bound)
    {frames : List (List UInt8)} (hf : ∀ f ∈ frames, IsFrame f ∧ f.length ≤ recvSize)
    {cut₁ cut₂ : List (List UInt8)} (h₁ : IsCut recvSize frames.flatten cut₁)
    (h₂ : IsCut recvSize frames.flatten cut₂) :
    Harbor.SameOutcome recvSize cut₁ cut₂ ↔
      Fits recvSize frames 0 cut₁ ∧ Fits recvSize frames 0 cut₂ := by
  have hframes : ∀ f ∈ frames, IsFrame f := fun f hmem => (hf f hmem).1
  constructor
  · rintro ⟨packets, ha₁, ha₂⟩
    exact ⟨((Harbor.feed_accepts hn hframes h₁ packets).mp ha₁).1,
      ((Harbor.feed_accepts hn hframes h₂ packets).mp ha₂).1⟩
  · rintro ⟨hf₁, hf₂⟩
    exact ⟨frames, (Harbor.feed_accepts hn hframes h₁ frames).mpr ⟨hf₁, rfl⟩,
      (Harbor.feed_accepts hn hframes h₂ frames).mpr ⟨hf₂, rfl⟩⟩

/-- A message of twelve bytes. -/
def twelve : List UInt8 := [1, 0, 0, 0, 12, 0, 0, 0, 3, 0, 0, 0]

theorem isCut_of_all {recvSize : Nat} {stream : List UInt8} {reads : List (List UInt8)}
    (h : (reads.flatten == stream &&
      reads.all fun bytes => decide (0 < bytes.length ∧ bytes.length ≤ recvSize)) = true) :
    IsCut recvSize stream reads := by
  simp only [Bool.and_eq_true, beq_iff_eq, List.all_eq_true, decide_eq_true_eq] at h
  exact ⟨h.1, h.2⟩

/-- Three such messages read in one piece each, or one and a half at a time with room for
one and a half. -/
theorem chunking_independent_three :
    Harbor.SameOutcome 18 [twelve, twelve, twelve] [twelve ++ twelve.take 6, twelve.drop 6, twelve] ↔
      Fits 18 [twelve, twelve, twelve] 0 [twelve, twelve, twelve] ∧
        Fits 18 [twelve, twelve, twelve] 0 [twelve ++ twelve.take 6, twelve.drop 6, twelve] :=
  chunking_independent (by decide) (by decide) (isCut_of_all (by decide)) (isCut_of_all (by decide))

/-- The half of a frame that the first read leaves, and a second read as long, are refused. -/
theorem chunking_dependent : ¬ ∀ (recvSize : Nat) (frames cut₁ cut₂ : List (List UInt8)),
    recvSize < s32Bound → (∀ f ∈ frames, IsFrame f ∧ f.length ≤ recvSize) →
      IsCut recvSize frames.flatten cut₁ → IsCut recvSize frames.flatten cut₂ →
        Harbor.SameOutcome recvSize cut₁ cut₂ := by
  intro h
  obtain ⟨packets, _, side, hrefused⟩ := h 18 [twelve, twelve, twelve] [twelve, twelve, twelve]
    [twelve ++ twelve.take 6, twelve.drop 6 ++ twelve] (by decide) (by decide)
    (isCut_of_all (by decide)) (isCut_of_all (by decide))
  have hfalse : (Harbor.feed 18 [twelve ++ twelve.take 6, twelve.drop 6 ++ twelve]).any
      Outcome.ok = false := by decide
  rw [hrefused] at hfalse
  cases hfalse

end HyperNet.Logic
