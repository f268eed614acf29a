import UdpTransfer.Core.Bytes
import UdpTransfer.Receiver.SBuffer
import UdpTransfer.Wire.Datagram

/-!
# What a datagram does at the receiver

`remoteisset` of `tcpds.c` receives into a buffer on the stack and looks for
packets in it: first every full 1024 bytes, then what is left over.  The second
search starts from `tempbuf`, which nothing has set if there was no full
packet.
-/

namespace UdpTransfer.Wire

open UdpTransfer.Bytes
open UdpTransfer.Receiver

/-- The socket address in front of each datagram. -/
abbrev SockAddr := List.Vector UInt8 16

/-- The bytes that `sendWindow` hands to the socket. -/
def frame (remote : SockAddr) (d : Datagram) : List UInt8 :=
  remote.toList ++ wordBytes d.crc32 ++ wordBytes d.packnum ++ d.payload

/-- A call of the receiver's `addData`. -/
structure Received where
  packetnumber : UInt32
  size : ℤ
  data : List UInt8
  deriving DecidableEq

/-- Calls `addData` if the checksum of the `len` bytes at `start` is the word
at `crccheckval`.  The data follows the packet number. -/
def checkPacket (memory : ℤ → UInt8) (crccheckval start len packetnumber size :
    ℤ) : List Received :=
  let retcrc := crc32 crcpoly (bytesAt memory start len.toNat)
  if retcrc = wordAt memory crccheckval then
    [{ packetnumber := wordAt memory packetnumber
       size := size
       data := bytesAt memory (packetnumber + 4) size.toNat }]
  else
    []

/-- The loop over the full packets, with `i` of them left.  It leaves `tempbuf`
at the last one. -/
def fullPackets (memory : ℤ → UInt8) (buffer read : ℤ) :
    ℕ → ℤ × List Received → ℤ × List Received
  | 0, state => state
  | i + 1, (_, calls) =>
      let offset := (read.tdiv 1024 - (i + 1)) * 1024
      let tempbuf := buffer + offset
      fullPackets memory buffer read i
        (tempbuf, calls ++ checkPacket memory (tempbuf + 16) (tempbuf + 24)
          (read - 24) (tempbuf + 20) 1000)

/-- The calls of `addData` for one datagram, where `buffer` is the address of
the buffer, and `memory` and `tempbuf` are what the stack holds before. -/
def remoteisset (memory : ℤ → UInt8) (buffer tempbuf : ℤ)
    (datagram : List UInt8) : List Received :=
  let bytes := datagram.take (20 * 1024)
  let memory := overlay memory buffer bytes
  let read : ℤ := bytes.length
  let lastPacket := read.tmod 1024
  let (tempbuf, calls) :=
    fullPackets memory buffer read (read.tdiv 1024).toNat (tempbuf, [])
  if lastPacket ≠ 0 then
    calls ++ checkPacket memory (tempbuf + 16) (tempbuf - lastPacket)
      lastPacket (tempbuf - lastPacket + 20) lastPacket
  else
    calls

/-- Carries out the calls, and returns the packet numbers acknowledged. -/
def acknowledge (s : SBuffer) :
    List Received → Option (List UInt32 × SBuffer)
  | [] => some ([], s)
  | call :: calls =>
      (s.addData (seqnumOf call.packetnumber) call.size call.data).bind
        fun (result, s) =>
          (acknowledge s calls).map fun (acks, s) =>
            (if result ≠ 0 then call.packetnumber :: acks else acks, s)

theorem length_frame (remote : SockAddr) (d : Datagram) :
    (frame remote d).length = 24 + d.payload.length := by
  rw [frame, List.length_append, List.length_append, List.length_append,
    length_wordBytes, length_wordBytes, List.Vector.toList_length]

/-- The fields of a frame, where it has been received. -/
structure Framed (memory : ℤ → UInt8) (a : ℤ) (d : Datagram) : Prop where
  crc32_eq : wordAt memory (a + 16) = d.crc32
  packnum_eq : wordAt memory (a + 20) = d.packnum
  payload_eq : bytesAt memory (a + 24) d.payload.length = d.payload

theorem framed_overlay (memory : ℤ → UInt8) (a : ℤ) (remote : SockAddr)
    (d : Datagram) : Framed (overlay memory a (frame remote d)) a d := by
  have hremote : remote.toList.length = 16 := remote.toList_length
  constructor
  · have hword := wordAt_overlay memory a remote.toList d.crc32
      (wordBytes d.packnum ++ d.payload)
    rwa [hremote, ← List.append_assoc] at hword
  · have hword := wordAt_overlay memory a
      (remote.toList ++ wordBytes d.crc32) d.packnum d.payload
    rwa [List.length_append, hremote, length_wordBytes] at hword
  · have hpiece := bytesAt_overlay memory a
      (remote.toList ++ wordBytes d.crc32 ++ wordBytes d.packnum) d.payload []
    rwa [List.append_nil, List.length_append, List.length_append, hremote,
      length_wordBytes, length_wordBytes] at hpiece

theorem fullPackets_one (memory : ℤ → UInt8) (buffer tempbuf : ℤ) {read : ℤ}
    (hread : read = 1024) :
    fullPackets memory buffer read 1 (tempbuf, []) =
      (buffer, checkPacket memory (buffer + 16) (buffer + 24) 1000
        (buffer + 20) 1000) := by
  have hdiv : read.tdiv 1024 = 1 := by
    rw [Int.tdiv_eq_ediv_of_nonneg] <;> omega
  have hlen : read - 24 = 1000 := by omega
  have hoffset : buffer + (read.tdiv 1024 - ((0 : ℕ) + 1)) * 1024 = buffer := by
    rw [hdiv]
    simp
  rw [fullPackets, fullPackets, hoffset, hlen, List.nil_append]

/-- A datagram of one full packet. -/
theorem remoteisset_of_length_eq {memory : ℤ → UInt8} {buffer tempbuf : ℤ}
    {bytes : List UInt8} (hlength : bytes.length = 1024) :
    remoteisset memory buffer tempbuf bytes =
      checkPacket (overlay memory buffer bytes) (buffer + 16) (buffer + 24)
        1000 (buffer + 20) 1000 := by
  have hdiv : (bytes.length : ℤ).tdiv 1024 = 1 := by
    rw [Int.tdiv_eq_ediv_of_nonneg] <;> omega
  have hmod : (bytes.length : ℤ).tmod 1024 = 0 := by
    rw [Int.tmod_eq_emod_of_nonneg] <;> omega
  rw [remoteisset, List.take_of_length_le (by omega)]
  dsimp only
  rw [hdiv, hmod, Int.toNat_one, fullPackets_one _ _ _ (by omega),
    if_neg (by decide)]

/-- A datagram shorter than a full packet. -/
theorem remoteisset_of_length_lt {memory : ℤ → UInt8} {buffer tempbuf : ℤ}
    {bytes : List UInt8} (hlength : bytes.length < 1024) (hne : bytes ≠ []) :
    remoteisset memory buffer tempbuf bytes =
      checkPacket (overlay memory buffer bytes) (tempbuf + 16)
        (tempbuf - bytes.length) bytes.length (tempbuf - bytes.length + 20)
        bytes.length := by
  have hpos := List.length_pos_of_ne_nil hne
  have hdiv : (bytes.length : ℤ).tdiv 1024 = 0 := by
    rw [Int.tdiv_eq_ediv_of_nonneg] <;> omega
  have hmod : (bytes.length : ℤ).tmod 1024 = bytes.length := by
    rw [Int.tmod_eq_emod_of_nonneg] <;> omega
  rw [remoteisset, List.take_of_length_le (by omega)]
  simp only [hdiv, hmod, Int.toNat_zero, fullPackets]
  rw [if_pos (by omega), List.nil_append]

/-- A full packet that arrives alone is handed to `addData` as it is, if its
checksum is right. -/
theorem remoteisset_full (memory : ℤ → UInt8) (buffer tempbuf : ℤ)
    (remote : SockAddr) {d : Datagram} (hlength : d.payload.length = 1000) :
    remoteisset memory buffer tempbuf (frame remote d) =
      if crc32 crcpoly d.payload = d.crc32 then
        [{ packetnumber := d.packnum, size := 1000, data := d.payload }]
      else
        [] := by
  obtain ⟨hcrc, hpacknum, hpayload⟩ := framed_overlay memory buffer remote d
  have hframe : (frame remote d).length = 1024 := by
    rw [length_frame]
    omega
  have hdata : bytesAt (overlay memory buffer (frame remote d)) (buffer + 24)
      (1000 : ℤ).toNat = d.payload := by
    rw [show (1000 : ℤ).toNat = d.payload.length by omega]
    exact hpayload
  rw [remoteisset_of_length_eq hframe, checkPacket, hcrc, hpacknum, hdata,
    show buffer + 20 + 4 = buffer + 24 by omega, hdata]

/-- The one call of `addData` that an intact packet leads to. -/
theorem acknowledge_full {d : Datagram} (hlength : d.payload.length = 1000)
    (hcrc : crc32 crcpoly d.payload = d.crc32) (s : SBuffer)
    (memory : ℤ → UInt8) (buffer tempbuf : ℤ) (remote : SockAddr) :
    acknowledge s (remoteisset memory buffer tempbuf (frame remote d)) =
      (s.addData (seqnumOf d.packnum) 1000 d.payload).map fun (result, s) =>
        (if result ≠ 0 then [d.packnum] else [], s) := by
  rw [remoteisset_full memory buffer tempbuf remote hlength, if_pos hcrc,
    acknowledge, Option.map_eq_bind]
  rfl

/-- From a shorter packet `addData` gets the length of the whole datagram. -/
theorem size_of_mem_remoteisset {memory : ℤ → UInt8} {buffer tempbuf : ℤ}
    {remote : SockAddr} {d : Datagram} (hlength : d.payload.length < 1000)
    {call : Received}
    (hcall : call ∈ remoteisset memory buffer tempbuf (frame remote d)) :
    call.size = 24 + d.payload.length := by
  have hframe := length_frame remote d
  have hne : frame remote d ≠ [] := List.ne_nil_of_length_pos (by omega)
  rw [remoteisset_of_length_lt (by omega) hne, checkPacket] at hcall
  split at hcall
  · rw [List.mem_singleton] at hcall
    rw [hcall]
    simp only [hframe]
    push_cast
    rfl
  · cases hcall

/-- One call of `addData`, with the number, the length and the bytes of the
packet. -/
def handsOver (calls : List Received) (bsn : ℤ) (payload : List UInt8) : Prop :=
  ∃ call, calls = [call] ∧ seqnumOf call.packetnumber = bsn ∧
    call.size = payload.length ∧ call.data = payload

/-- A packet of at most 1000 bytes that arrives alone is handed over as it is
exactly when it has 1000 bytes. -/
theorem remoteisset_handsOver_iff (memory : ℤ → UInt8) (buffer tempbuf : ℤ)
    (remote : SockAddr) (bsn : ℤ) (payload : List UInt8)
    (hbsn : -2147483648 ≤ bsn ∧ bsn ≤ 2147483647)
    (hpayload : 1 ≤ payload.length ∧ payload.length ≤ 1000) :
    handsOver (remoteisset memory buffer tempbuf
        (frame remote (datagram bsn payload))) bsn payload ↔
      payload.length = 1000 := by
  constructor
  · rintro ⟨call, hcalls, -, hsize, -⟩
    by_contra hne
    have hcall := size_of_mem_remoteisset
      (show (datagram bsn payload).payload.length < 1000 from by
        change payload.length < 1000
        omega)
      (hcalls ▸ List.mem_singleton_self call)
    change call.size = 24 + (payload.length : ℤ) at hcall
    omega
  · intro hlength
    have hcalls := remoteisset_full memory buffer tempbuf remote
      (show (datagram bsn payload).payload.length = 1000 from hlength)
    rw [if_pos (by rfl)] at hcalls
    refine ⟨_, hcalls, seqnumOf_ofInt hbsn.1 hbsn.2, ?_, rfl⟩
    simp only [hlength]
    rfl

theorem remoteisset_handsOver_iff_zeros :
    handsOver (remoteisset (fun _ => 0) 0 0
        (frame (List.Vector.replicate 16 0)
          (datagram 1 (List.replicate 1000 0)))) 1 (List.replicate 1000 0) ↔
      (List.replicate 1000 (0 : UInt8)).length = 1000 :=
  remoteisset_handsOver_iff (fun _ => 0) 0 0 (List.Vector.replicate 16 0) 1
    (List.replicate 1000 0) (by decide)
    (by rw [List.length_replicate]; decide)

/-- A packet of one byte is not handed over. -/
theorem not_remoteisset_handsOver :
    ¬ handsOver (remoteisset (fun _ => 0) 0 0
      (frame (List.Vector.replicate 16 0) (datagram 1 [7]))) 1 [7] := by
  rintro ⟨call, hcalls, -, hsize, -⟩
  have hcall := size_of_mem_remoteisset
    (show (datagram 1 [7]).payload.length < 1000 by decide)
    (hcalls ▸ List.mem_singleton_self call)
  change call.size = 24 + 1 at hcall
  change call.size = 1 at hsize
  omega

end UdpTransfer.Wire
