import Mathlib.Data.Int.Basic

/-! # What a connection asks of a packet parser (core::IPacketParser)

`ParsePacket` reads the buffer from where a packet would begin. `ProcessPacket`
hands `u` bytes on and moves `u` bytes forward when it answers `u > 0`, so a
parser must not answer more than it was shown. -/
namespace HyperNet.Api

/-- `u > 0`: a packet of `u` bytes is there; `0`: it is not complete; `u < 0`: the bytes
are no packet. -/
structure PacketParser where
  parsePacket : List UInt8 → Int
  le_length : ∀ bytes, parsePacket bytes ≤ bytes.length

namespace PacketParser

/-- The bytes are the beginning of no packet. -/
def rejects (p : PacketParser) (bytes : List UInt8) : Bool :=
  bytes != [] && decide (p.parsePacket bytes < 0)

/-- No packet is complete in the bytes. -/
def incomplete (p : PacketParser) (bytes : List UInt8) : Bool :=
  bytes == [] || p.parsePacket bytes == 0

end PacketParser
end HyperNet.Api
