import Mathlib.Logic.Function.Basic
import UdpTransfer.Core.Loop
import UdpTransfer.Core.Memory

/-!
# The receive buffer

`sbuffer.c` keeps the packets that have arrived in a ring of heap nodes.  Each
node describes a run of consecutive sequence numbers, either stored in the
64000-byte buffer or still missing, and the ring is entered through `head`.
This file transcribes the program: nodes live at addresses, `next` is an
address, and every loop is a loop over the heap.  A call has no result when it
runs for ever, copies outside the buffer, or overflows a sequence number.
-/

namespace UdpTransfer.Receiver

open UdpTransfer.Loop
open UdpTransfer.Memory

/-- What a ring node says about its run of sequence numbers. -/
structure Extent where
  firstSeq : ℤ
  lastSeq : ℤ
  data : ℤ
  size : ℤ
  filled : Bool
  deriving DecidableEq

structure CirNode extends Extent where
  next : ℕ

structure SBuffer where
  buffer : ℕ → UInt8
  dstart : ℤ
  dend : ℤ
  head : ℕ
  nodes : ℕ → CirNode
  /-- The address the next `malloc` returns. -/
  fresh : ℕ

def intMax : ℤ := 2147483647

namespace SBuffer

def setNode (s : SBuffer) (address : ℕ) (node : CirNode) : SBuffer :=
  { s with nodes := Function.update s.nodes address node }

def blankNode : CirNode where
  next := 0
  firstSeq := 0
  lastSeq := 0
  data := 0
  size := 0
  filled := false

def newCirNode (s : SBuffer) : ℕ × SBuffer :=
  (s.fresh, { s.setNode s.fresh blankNode with fresh := s.fresh + 1 })

/-- The buffer after `initHead`, on the globals of a fresh process. -/
def initHead : SBuffer where
  buffer := fun _ => 0
  dstart := 1
  dend := 1
  head := 1
  nodes := Function.update (fun _ => blankNode) 1
    { next := 1, firstSeq := 1, lastSeq := 64, data := 0, size := 64000,
      filled := false }
  fresh := 2

/-! ## mergeList -/

/-- The first merge rule: two runs of one kind that follow on. -/
def followsOn (current next : Extent) : Bool :=
  current.lastSeq = next.firstSeq - 1 ∧ current.filled = next.filled

/-- The second merge rule: two holes, neither of which starts at `dstart`. -/
def sparesHoles (dstart : ℤ) (current next : Extent) : Bool :=
  current.filled = false ∧ next.filled = false ∧
    dstart ≠ current.firstSeq ∧ dstart ≠ next.firstSeq

def mergeFollowing (current next : Extent) : Extent :=
  { current with
    lastSeq := next.lastSeq
    size := current.size + next.size }

def mergeSpare (current next : Extent) : Extent :=
  { current with
    lastSeq := intMax
    size := current.size + next.size }

/-- `current` takes over what its successor describes, and the successor
leaves the ring. -/
def absorbNext (s : SBuffer) (current : ℕ) (merged : Extent) : SBuffer :=
  s.setNode current
    { toExtent := merged
      next := (s.nodes (s.nodes current).next).next }

def mergeFollowingLoop (current : ℕ) (s : SBuffer) : Option SBuffer :=
  whileLoop
    (fun s =>
      let cur := s.nodes current
      followsOn cur.toExtent (s.nodes cur.next).toExtent)
    (fun s =>
      let cur := s.nodes current
      some (s.absorbNext current
        (mergeFollowing cur.toExtent (s.nodes cur.next).toExtent)))
    s

def mergeSpareLoop (current : ℕ) (s : SBuffer) : Option SBuffer :=
  whileLoop
    (fun s =>
      let cur := s.nodes current
      sparesHoles s.dstart cur.toExtent (s.nodes cur.next).toExtent)
    (fun s =>
      let cur := s.nodes current
      some (s.absorbNext current
        (mergeSpare cur.toExtent (s.nodes cur.next).toExtent)))
    s

/-- The outer loop of `mergeList`, entered with `current` at some node. -/
def mergeFrom (state : SBuffer × ℕ) : Option (SBuffer × ℕ) :=
  whileLoop (fun (s, current) => decide ((s.nodes current).next ≠ s.head))
    (fun (s, current) =>
      (mergeFollowingLoop current s).bind fun s =>
        (mergeSpareLoop current s).bind fun s =>
          some (s, (s.nodes current).next))
    state

def mergeList (s : SBuffer) : Option SBuffer :=
  (mergeFrom (s, s.head)).map Prod.fst

/-! ## addData -/

/-- An offset past the end of the buffer, brought back once. -/
def wrap (offset : ℤ) : ℤ :=
  if offset > 64000 then offset - 64000 else offset

/-- The hole left before a packet that lands inside `hole`. -/
def holeBefore (hole : Extent) (seqnum : ℤ) : Extent :=
  { hole with
    lastSeq := seqnum - 1
    size := (seqnum - 1 - hole.firstSeq + 1) * 1000 }

/-- The packet that lands inside `hole` (`nodeA`). -/
def packetInside (hole : Extent) (seqnum size : ℤ) : Extent where
  firstSeq := seqnum
  lastSeq := seqnum
  data := wrap (hole.data + (holeBefore hole seqnum).size)
  size := size
  filled := true

/-- The hole left behind a packet that lands inside `hole` (`nodeB`). -/
def holeBehind (hole : Extent) (seqnum size : ℤ) : Extent where
  firstSeq := seqnum + 1
  lastSeq := hole.lastSeq
  data := wrap ((packetInside hole seqnum size).data + size)
  size := hole.size - ((holeBefore hole seqnum).size + size)
  filled := false

/-- The branches of `addData` that place a packet in a hole.  The address
returned is where `current` stands afterwards; the node there is filled if and
only if the packet was placed. -/
def fillHole (s : SBuffer) (current : ℕ) (seqnum size : ℤ) :
    Option (SBuffer × ℕ) :=
  let cur := s.nodes current
  -- data fills beginning of hole
  if cur.firstSeq = seqnum then
    if size < cur.size then
      (signedInt (seqnum + 1)).map fun succ =>
        let (node, s) := s.newCirNode
        let s := s.setNode node
          { next := cur.next, firstSeq := succ, lastSeq := cur.lastSeq,
            data := cur.data + size, size := cur.size - size,
            filled := false }
        (s.setNode current
          { cur with size := size, filled := true, lastSeq := seqnum,
                     next := node }, current)
    else if size = cur.size then
      some (s.setNode current
        { cur with filled := true, firstSeq := seqnum, lastSeq := seqnum },
        current)
    else
      some (s, current)
  -- data fills middle of a hole
  else if cur.firstSeq < seqnum ∧ cur.lastSeq > seqnum then
    let (nodeA, s) := s.newCirNode
    let (nodeB, s) := s.newCirNode
    let s := s.setNode nodeA
      { toExtent := packetInside cur.toExtent seqnum size, next := nodeB }
    let s := s.setNode nodeB
      { toExtent := holeBehind cur.toExtent seqnum size, next := cur.next }
    some (s.setNode current
      { toExtent := holeBefore cur.toExtent seqnum, next := nodeA }, nodeA)
  -- data fills end of a hole
  else if cur.firstSeq < seqnum ∧ cur.lastSeq = seqnum then
    let (node, s) := s.newCirNode
    let s := s.setNode node
      { next := cur.next, firstSeq := seqnum, lastSeq := seqnum,
        data := wrap (cur.data + cur.size - size), size := size,
        filled := true }
    some (s.setNode current
      { cur with next := node, size := cur.size - size,
                 lastSeq := seqnum - 1 }, node)
  else
    some (s, current)

/-- Copies a packet to its place, in two pieces where the place wraps. -/
def storeBytes (buffer : ℕ → UInt8) (place : Extent) (data : List UInt8) :
    Option (ℕ → UInt8) :=
  if place.data + place.size > 64000 then
    (memcpyIn 64000 buffer place.data data 0 (64000 - place.data)).bind
      fun buffer =>
        memcpyIn 64000 buffer 0 data (64000 - place.data)
          (place.size - (64000 - place.data))
  else
    memcpyIn 64000 buffer place.data data 0 place.size

/-- The walk of `addData` round the ring, from `current` on. -/
def insertFrom (seqnum size : ℤ) (data : List UInt8) (s : SBuffer)
    (current : ℕ) : Option (ℤ × SBuffer) :=
  let cur := s.nodes current
  -- Check for entry that already exists
  if cur.firstSeq = seqnum ∧ cur.filled = true then
    some (1, s)
  else
    match signedInt (s.dstart + 63) with
    | none => none
    | some limit =>
      if seqnum > limit then
        some (0, s)
      else if cur.filled = false then
        match fillHole s current seqnum size with
        | none => none
        | some (s, current) =>
          if (s.nodes current).filled = true then
            match storeBytes s.buffer (s.nodes current).toExtent data with
            | none => none
            | some buffer =>
              match mergeList
                  { s with
                    buffer := buffer
                    dend := if seqnum > s.dend then seqnum else s.dend } with
              | none => none
              | some s => some (1, s)
          else if (s.nodes current).next = s.head then
            some (0, s)
          else
            by apply insertFrom
               exacts [seqnum, size, data, s, (s.nodes current).next]
      else if cur.next = s.head then
        some (0, s)
      else
        by apply insertFrom; exacts [seqnum, size, data, s, cur.next]
partial_fixpoint

/-- The node count that `addData` prints. -/
def countNodes (s : SBuffer) : Option ℤ :=
  (whileLoop
    (fun state : ℤ × ℕ => decide ((s.nodes state.2).next ≠ s.head))
    (fun state => some (state.1 + 1, (s.nodes state.2).next))
    (1, s.head)).map Prod.fst

def addData (s : SBuffer) (seqnum size : ℤ) (data : List UInt8) :
    Option (ℤ × SBuffer) :=
  (mergeList s).bind fun s =>
    (countNodes s).bind fun _ => insertFrom seqnum size data s s.head

/-! ## requestData -/

/-- The `count` bytes copied out of a run, in two pieces where the run wraps. -/
def fetchBytes (buffer : ℕ → UInt8) (run : Extent) (count : ℤ) :
    Option (List UInt8) :=
  if run.size + run.data > 64000 then
    (memcpyOut 64000 buffer run.data (64000 - run.data)).bind fun first =>
      (memcpyOut 64000 buffer 0 (count - (64000 - run.data))).map
        fun second => first ++ second
  else
    memcpyOut 64000 buffer run.data count

/-- The return value of `requestData`, the bytes it leaves at `d`, and the
buffer afterwards. -/
def requestData (s : SBuffer) (size : ℤ) :
    Option (ℤ × List UInt8 × SBuffer) :=
  let cur := s.nodes s.head
  if cur.filled = true ∧ cur.firstSeq = s.dstart then
    -- Wants more or equal data of current
    if cur.size ≤ size then
      (fetchBytes s.buffer cur.toExtent cur.size).bind fun bytes =>
        (signedInt (cur.lastSeq + 1)).bind fun dstart =>
          let s := s.setNode s.head { cur with filled := false }
          (mergeList { s with dstart := dstart, head := cur.next }).map
            fun s => (cur.size, bytes, s)
    -- Current has more data then what is being requested
    else
      (fetchBytes s.buffer cur.toExtent size).map fun bytes =>
        (size, bytes,
          s.setNode s.head
            { cur with data := cur.data + size, size := cur.size - size })
  else
    some (0, [], s)

end SBuffer

end UdpTransfer.Receiver
