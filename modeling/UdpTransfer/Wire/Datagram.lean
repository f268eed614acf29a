import Mathlib.Data.Int.Notation
import UdpTransfer.Wire.Crc32

/-!
# The datagram

What `sendWindow` puts into `struct trollSock` behind the address that troll
reads: the checksum, the packet number and the payload.
-/

namespace UdpTransfer.Wire

structure Datagram where
  crc32 : UInt32
  packnum : UInt32
  payload : List UInt8
  deriving DecidableEq

/-- The datagram of packet `bsn`: the number is copied bit by bit. -/
def datagram (bsn : ℤ) (payload : List UInt8) : Datagram where
  crc32 := crc32 crcpoly payload
  packnum := UInt32.ofInt bsn
  payload := payload

/-- A packet number, as the `int` that the receiver's `addData` takes. -/
def seqnumOf (packnum : UInt32) : ℤ := packnum.toInt32.toInt

/-- Packet numbers tell the `int`s apart. -/
theorem seqnumOf_ofInt {seqnum : ℤ} (hlow : -2147483648 ≤ seqnum)
    (hhigh : seqnum ≤ 2147483647) :
    seqnumOf (UInt32.ofInt seqnum) = seqnum := by
  change (BitVec.ofNat 32 (seqnum % 2 ^ 32).toNat).toInt = seqnum
  rw [BitVec.toInt_ofNat', Int.bmod_eq_emod]
  split <;> omega

end UdpTransfer.Wire
