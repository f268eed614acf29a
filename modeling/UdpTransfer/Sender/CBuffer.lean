import Mathlib.Algebra.BigOperators.Group.List.Basic
import Mathlib.Algebra.Order.Field.Rat
import UdpTransfer.Core.Memory
import UdpTransfer.Wire.Datagram

/-!
# The send buffer

`cbuffer.c` keeps the bytes that `ftpc` has handed over in a circular buffer of
64000 bytes, from `dstart` up to `dend`, and the packets cut from its first
20000 bytes in a linked list.  The `ack` field of a packet is 0 before it is
sent and after its timer has run out, 1 while it is under way and 2 once it is
acknowledged.  A call has no result when it copies outside the buffer, leaves
the `packtimes` array or runs out of packet numbers.
-/

namespace UdpTransfer.Sender

open UdpTransfer.Memory
open UdpTransfer.Wire

structure PackNode where
  seqnum : ℤ
  data : ℤ
  size : ℤ
  ack : ℤ
  deriving DecidableEq

structure Timespec where
  sec : ℤ
  nsec : ℤ
  deriving DecidableEq

structure RttPack where
  bsn : ℤ
  on : ℤ
  timestart : Timespec
  deriving DecidableEq

structure CBuffer where
  cirbuffer : ℕ → UInt8
  packtimes : List RttPack
  /-- The list behind the first node, which only anchors it. -/
  nodes : List PackNode
  dstart : ℤ
  dend : ℤ
  windowend : ℤ
  packseq : ℤ
  isEmpty : ℤ
  srtt : ℚ
  rttvar : ℚ
  rto : ℚ

/-- What `sendWindow` does for one packet: the datagram it sends, and the number
for which it starts a timer. -/
structure Sent where
  bsn : ℤ
  datagram : Datagram

namespace CBuffer

/-- The globals of a fresh process, after `initialize`. -/
def start : CBuffer where
  cirbuffer := fun _ => 0
  packtimes := List.replicate 20 { bsn := 0, on := 0, timestart := ⟨0, 0⟩ }
  nodes := []
  dstart := 0
  dend := 0
  windowend := 0
  packseq := 1
  isEmpty := 1
  srtt := 0
  rttvar := 0
  rto := 1000

/-- `% 64000`, which rounds towards zero. -/
def cmod (a : ℤ) : ℤ := a.tmod 64000

/-- The free space; computing it also corrects `isEmpty`. -/
def spaceLeft (s : CBuffer) : ℤ × CBuffer :=
  if s.dend < s.dstart then
    (s.dstart - s.dend, { s with isEmpty := 0 })
  else if s.dstart < s.dend then
    (64000 - (s.dend - s.dstart), { s with isEmpty := 0 })
  else if s.isEmpty = 1 then
    (64000, s)
  else
    (0, s)

/-! ## checkWindow -/

/-- Frees the acknowledged packets at the front of the list.  The freed nodes
are returned. -/
def freeAcked (s : CBuffer) : List PackNode → List PackNode × CBuffer
  | [] => ([], { s with nodes := [] })
  | current :: rest =>
      if current.ack = 2 then
        let (freed, s) := freeAcked
          { s with
            dstart := cmod (s.dstart + current.size)
            isEmpty := if rest.isEmpty then 1 else s.isEmpty } rest
        (current :: freed, s)
      else
        ([], { s with nodes := current :: rest })

/-- Cuts packets of at most 1000 bytes from the `disttowindow` bytes at
`data`. -/
def newPackNodes (data packseq disttowindow : ℤ) :
    Option (List PackNode × ℤ) :=
  if disttowindow > 0 then
    let mini := min 1000 disttowindow
    (signedInt (packseq + 1)).bind fun succ =>
      (newPackNodes (cmod (data + mini)) succ (disttowindow - mini)).map
        fun (nodes, packseq') =>
          ({ seqnum := packseq, data := data, size := mini, ack := 0 } :: nodes,
            packseq')
  else
    some ([], packseq)
termination_by disttowindow.toNat
decreasing_by omega

/-- The distance from `dstart` to the end of the window, going round. -/
def disttowindow (dstart windowend : ℤ) : ℤ :=
  if dstart < windowend then
    windowend - dstart
  else if windowend < dstart then
    64000 - dstart + windowend
  else
    0

/-- Where the first packet behind those listed begins. -/
def nextData (s : CBuffer) : ℤ :=
  match s.nodes.getLast? with
  | none => s.dstart
  | some last => cmod (last.data + last.size)

/-- Moves the end of the window and lists the packets that come into it. -/
def fillWindow (s : CBuffer) : Option CBuffer :=
  let (space, s) := s.spaceLeft
  let windowend :=
    if 64000 - space ≥ 20000 then
      cmod (s.dstart + 20000)
    else
      cmod (64000 - space + s.dstart)
  let dist := disttowindow s.dstart windowend
  if dist > 0 then
    (newPackNodes s.nextData s.packseq
      (dist - (s.nodes.map PackNode.size).sum)).map fun (new, packseq) =>
        { s with
          windowend := windowend
          nodes := s.nodes ++ new
          packseq := packseq }
  else
    some { s with windowend := windowend }

/-- The nodes freed, and the buffer afterwards. -/
def checkWindow (s : CBuffer) : Option (List PackNode × CBuffer) :=
  let (freed, s) := s.freeAcked s.nodes
  s.fillWindow.map fun s => (freed, s)

/-! ## addData -/

/-- Copies a chunk behind `dend`, in two pieces where it wraps. -/
def store (s : CBuffer) (data : List UInt8) (size : ℤ) : Option CBuffer :=
  if 64000 - s.dend ≥ size then
    (memcpyIn 64000 s.cirbuffer s.dend data 0 size).map fun cirbuffer =>
      { s with cirbuffer := cirbuffer, dend := s.dend + size }
  else
    (memcpyIn 64000 s.cirbuffer s.dend data 0 (64000 - s.dend)).bind
      fun cirbuffer =>
        (memcpyIn 64000 cirbuffer 0 data (64000 - s.dend)
          (size - (64000 - s.dend))).map fun cirbuffer =>
            { s with
              cirbuffer := cirbuffer
              dend := size - (64000 - s.dend) }

/-- The return value, the nodes freed, and the buffer afterwards. -/
def addData (s : CBuffer) (data : List UInt8) (size : ℤ) :
    Option (ℤ × List PackNode × CBuffer) :=
  let (space, s) := s.spaceLeft
  if |space| ≥ size then
    (s.store data size).bind fun s =>
      (checkWindow { s with isEmpty := 0 }).map fun (freed, s) =>
        (1, freed, s)
  else
    s.checkWindow.map fun (freed, s) => (0, freed, s)

/-! ## sendWindow -/

def requestSize (num : ℤ) : List PackNode → ℤ × List PackNode
  | [] => (0, [])
  | current :: rest =>
      if current.seqnum = num then
        (current.size, { current with ack := 1 } :: rest)
      else
        let (size, rest) := requestSize num rest
        (size, current :: rest)

/-- The bytes of a packet, in two pieces where it wraps. -/
def packetBytes (cirbuffer : ℕ → UInt8) (node : PackNode) :
    Option (List UInt8) :=
  if node.size + node.data > 64000 then
    (memcpyOut 64000 cirbuffer node.data (64000 - node.data)).bind
      fun first =>
        (memcpyOut 64000 cirbuffer 0 (node.size - (64000 - node.data))).map
          fun second => first ++ second
  else
    memcpyOut 64000 cirbuffer node.data node.size

def requestData (cirbuffer : ℕ → UInt8) (num : ℤ) :
    List PackNode → Option (List UInt8 × List PackNode)
  | [] => some ([], [])
  | current :: rest =>
      if current.seqnum = num then
        (packetBytes cirbuffer current).map fun bytes =>
          (bytes, { current with ack := 1 } :: rest)
      else
        (requestData cirbuffer num rest).map fun (bytes, rest) =>
          (bytes, current :: rest)

/-- Sends the packet at place `i` of the list, whose node is `current`. -/
def sendNode (s : CBuffer) (clock : Timespec) (i : ℕ) (current : PackNode) :
    Option (Sent × CBuffer) :=
  let bsn := current.seqnum
  let (size, nodes) := requestSize bsn s.nodes
  (requestData s.cirbuffer bsn nodes).bind fun (data, nodes) =>
    -- the packet is built in an array of `size` bytes and in `pack.buffer`
    if 0 < size ∧ size ≤ 1000 then
      (s.packtimes.findIdx? fun slot => slot.on = 0).map fun slot =>
        ({ bsn := bsn, datagram := datagram bsn data },
          { s with
            packtimes := s.packtimes.set slot
              { bsn := bsn, on := 1, timestart := clock }
            nodes := nodes.modify i fun node => { node with ack := 1 } })
    else
      none

def sendAt (clock : ℕ → Timespec) (state : List Sent × CBuffer) (i : ℕ) :
    Option (List Sent × CBuffer) :=
  match state.2.nodes[i]? with
  | none => some state
  | some current =>
      if current.ack > 0 then
        some state
      else
        (state.2.sendNode (clock i) i current).map fun (sent, s) =>
          (state.1 ++ [sent], s)

/-- Walks down the list once and sends every packet that is not under way. -/
def sendWindow (s : CBuffer) (clock : ℕ → Timespec) :
    Option (List Sent × CBuffer) :=
  (List.range s.nodes.length).foldlM (sendAt clock) ([], s)

/-! ## Acknowledgements and timers -/

/-- The estimator; `1 / 8` and `1 / 4` are integer divisions in the source. -/
def timeComps (s : CBuffer) (delta : ℚ) : CBuffer :=
  let s := if s.srtt = 0 then { s with srtt := delta } else s
  if s.rttvar = 0 then
    { s with rttvar := delta / 2 }
  else
    let eighth : ℤ := (1 : ℤ).tdiv 8
    let quarter : ℤ := (1 : ℤ).tdiv 4
    let srtt := (1 - eighth : ℤ) * s.srtt + eighth * delta
    let rttvar := (1 - quarter : ℤ) * s.rttvar + quarter * |srtt - delta|
    { s with srtt := srtt, rttvar := rttvar, rto := srtt + 4 * rttvar }

/-- Milliseconds from `start` to `stop`. -/
def elapsed (start stop : Timespec) : ℚ :=
  (stop.sec - start.sec : ℤ) * 1000 + (stop.nsec - start.nsec : ℤ) / 1000000

/-- Marks the first packet numbered `num` as acknowledged, if there is one. -/
def markAcked (num : ℤ) : List PackNode → Option (List PackNode)
  | [] => none
  | current :: rest =>
      if current.seqnum = num then
        some ({ current with ack := 2 } :: rest)
      else
        (markAcked num rest).map fun rest => current :: rest

/-- The return value, the nodes freed, and the buffer afterwards.  In between a
cancellation of timer `num` is sent. -/
def recvACK (s : CBuffer) (num : ℤ) (stop : Timespec) :
    Option (ℤ × List PackNode × CBuffer) :=
  (s.packtimes.findIdx? fun slot => slot.bsn = num).bind fun i =>
    let started := (s.packtimes[i]?.map RttPack.timestart).getD ⟨0, 0⟩
    let s := s.timeComps (elapsed started stop)
    let s := { s with
      packtimes := s.packtimes.modify i fun slot => { slot with on := 0 } }
    match markAcked num s.nodes with
    | some nodes =>
        (checkWindow { s with nodes := nodes }).map fun (freed, s) =>
          (1, freed, s)
    | none => some (0, [], s)

def timerExpire (s : CBuffer) (bsn : ℤ) : CBuffer :=
  { s with
    nodes := s.nodes.map fun current =>
      if current.seqnum = bsn then { current with ack := 0 } else current
    packtimes := s.packtimes.map fun slot =>
      if slot.bsn = bsn then { slot with on := 0 } else slot }

end CBuffer

end UdpTransfer.Sender
