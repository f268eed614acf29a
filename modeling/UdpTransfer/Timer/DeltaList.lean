import Mathlib.Algebra.Order.Field.Rat
import Mathlib.Data.Rat.Floor
import Mathlib.Logic.Function.Basic
import UdpTransfer.Core.Memory

/-!
# The delta list

`timerprocess.c` keeps its timers in a doubly linked list, each with the time
that it runs on after the timer before it.  Times are exact rationals.  This
file transcribes the program: nodes live at addresses, 0 is `NULL`, and a call
has no result when it runs for ever, writes through `NULL` or converts a time
that no `int` can hold.
-/

namespace UdpTransfer.Timer

open UdpTransfer.Memory

structure ListNode where
  dtime : ℚ
  port : ℤ
  byteSeqNum : UInt32
  prev : ℕ
  next : ℕ

structure Timers where
  head : ℕ
  tail : ℕ
  nodes : ℕ → ListNode
  /-- The address the next `malloc` returns. -/
  fresh : ℕ

/-- An expiration notice: the timer it is about and the number that it names.
`freed` is the node that was taken out of the list behind it. -/
structure Notice where
  timer : ℕ
  byteSeqNum : UInt32
  freed : Option ℕ

namespace Timers

def noNode : ListNode where
  dtime := 0
  port := 0
  byteSeqNum := 0
  prev := 0
  next := 0

/-- The globals of a fresh process. -/
def start : Timers where
  head := 0
  tail := 0
  nodes := fun _ => noNode
  fresh := 1

def setNode (s : Timers) (address : ℕ) (node : ListNode) : Timers :=
  { s with nodes := Function.update s.nodes address node }

def setDtime (s : Timers) (address : ℕ) (dtime : ℚ) : Timers :=
  s.setNode address { s.nodes address with dtime := dtime }

def setPrev (s : Timers) (address prev : ℕ) : Timers :=
  s.setNode address { s.nodes address with prev := prev }

def setNext (s : Timers) (address next : ℕ) : Timers :=
  s.setNode address { s.nodes address with next := next }

/-- The conversion of a time to an `int`, which rounds towards zero. -/
def toInt (time : ℚ) : Option ℤ :=
  signedInt (if 0 ≤ time then ⌊time⌋ else ⌈time⌉)

theorem toInt_of_nonneg {time : ℚ} {carried : ℤ} (htime : 0 ≤ time) :
    toInt time = some carried ↔ carried = ⌊time⌋ ∧ ⌊time⌋ ≤ 2147483647 := by
  have hfloor := Int.floor_nonneg.2 htime
  rw [toInt, if_pos htime, signedInt_eq_some]
  refine and_congr_right fun _ => ⟨fun h => h.2, fun h => ⟨by omega, h⟩⟩

theorem toInt_of_nonpos {time : ℚ} {carried : ℤ} (htime : time ≤ 0) :
    toInt time = some carried ↔
      carried = ⌈time⌉ ∧ -2147483648 ≤ ⌈time⌉ := by
  have hceil : ⌈time⌉ ≤ 0 := Int.ceil_le.2 (by simpa using htime)
  have hround : (if 0 ≤ time then ⌊time⌋ else ⌈time⌉) = ⌈time⌉ := by
    split
    · rename_i hnonneg
      rw [le_antisymm htime hnonneg]
      simp
    · rfl
  rw [toInt, hround, signedInt_eq_some]
  refine and_congr_right fun _ => ⟨fun h => h.1, fun h => ⟨h, by omega⟩⟩

/-! ## insertValue -/

/-- The walk of `insertValue` along the list: the time elapsed before
`current`, and where it stops. -/
def traverse (s : Timers) (dtime elapse : ℚ) (current : ℕ) :
    Option (ℚ × ℕ) :=
  let cur := s.nodes current
  if elapse + cur.dtime < dtime then
    -- Last Node?
    if cur.next = 0 then
      some (elapse + cur.dtime, current)
    else
      by apply traverse; exacts [s, dtime, elapse + cur.dtime, cur.next]
  else
    some (elapse, current)
partial_fixpoint

/-- Where the new node is to go. -/
def findPlace (s : Timers) (dtime : ℚ) : Option (ℚ × ℕ) :=
  let current := s.nodes s.head
  -- Special Cases
  if dtime = current.dtime then
    some (dtime, s.head)
  else if current.next ≠ 0 then
    traverse s dtime 0 s.head
  else
    some (0, s.head)

/-- Links the new `node` in, with `current` where the walk stopped. -/
def linkNode (s : Timers) (dtime elapse : ℚ) (current node : ℕ) :
    Option Timers :=
  -- Replace Head
  if dtime ≤ (s.nodes s.head).dtime then
    let s := s.setPrev node 0
    let s := s.setNext node current
    let s := s.setPrev current node
    some { s with head := node }
  -- Non Head/Tail
  else if (s.nodes current).next ≠ 0 then
    let next := (s.nodes current).next
    let s := s.setNext node next
    let s := s.setPrev next node
    let s := s.setPrev node current
    some (s.setNext current node)
  -- Replace tail
  else if elapse + (s.nodes current).dtime ≤ dtime then
    let s :=
      if elapse = 0 then
        s.setDtime node (dtime - (s.nodes current).dtime)
      else
        s
    let s := s.setNext current node
    let s := s.setNext node 0
    let s := s.setPrev node current
    some { s with tail := node }
  -- Insert prior to tail
  else
    let prev := (s.nodes current).prev
    if prev = 0 then
      none
    else
      let s := s.setNext prev node
      let s := s.setPrev node prev
      let s := s.setPrev current node
      some (s.setNext node current)

/-- Update following dtime value. -/
def updateFollowing (s : Timers) (node : ℕ) : Timers :=
  let next := (s.nodes node).next
  if next ≠ 0 then
    s.setDtime next ((s.nodes next).dtime - (s.nodes node).dtime)
  else
    s

def insertValue (s : Timers) (dtime : ℚ) (port : ℤ) (byteSeqNum : UInt32) :
    Option Timers :=
  let node : ListNode :=
    { dtime := dtime, port := port, byteSeqNum := byteSeqNum, prev := 0,
      next := 0 }
  if s.head = 0 then
    some { s.setNode s.fresh node with
      head := s.fresh
      tail := s.fresh
      fresh := s.fresh + 1 }
  else
    (s.findPlace dtime).bind fun (elapse, current) =>
      let node := { node with dtime := dtime - elapse }
      let s' := { s.setNode s.fresh node with fresh := s.fresh + 1 }
      (s'.linkNode dtime elapse current s.fresh).map fun s' =>
        s'.updateFollowing s.fresh

/-! ## removeValue -/

/-- The first node from `current` on that bears the number. -/
def find (s : Timers) (byteSeqNum : UInt32) (current : ℕ) :
    Option (Option ℕ) :=
  let cur := s.nodes current
  if cur.byteSeqNum ≠ byteSeqNum then
    if cur.next = 0 then
      some none
    else
      by apply find; exacts [s, byteSeqNum, cur.next]
  else
    some (some current)
partial_fixpoint

/-- Takes `current` out of the list. -/
def unlinkNode (s : Timers) (current : ℕ) : Option Timers :=
  let cur := s.nodes current
  -- If it is only value in list
  if cur.next = 0 ∧ cur.prev = 0 then
    some { s with head := 0, tail := 0 }
  -- If it is the last value
  else if cur.next = 0 then
    some ({ s with tail := cur.prev }.setNext cur.prev 0)
  else
    let s :=
      -- If it is the first value
      if cur.prev = 0 then
        { s with head := cur.next }.setPrev cur.next cur.prev
      else
        (s.setNext cur.prev cur.next).setPrev cur.next cur.prev
    -- Update following dtime value
    (toInt cur.dtime).map fun dtime : ℤ =>
      s.setDtime cur.next ((s.nodes cur.next).dtime + dtime)

/-- The return value, the node freed, and the list afterwards. -/
def removeValue (s : Timers) (byteSeqNum : UInt32) :
    Option (ℤ × Option ℕ × Timers) :=
  if s.head = 0 then
    some (0, none, s)
  else
    (s.find byteSeqNum s.head).bind fun
      | none => some (-1, none, s)
      | some current =>
          (s.unlinkNode current).map fun s => (0, some current, s)

/-! ## decrement -/

/-- Sends the notice for `head` and removes it. -/
def expireHead (s : Timers) (notices : List Notice) :
    Option (List Notice × Timers) :=
  let head := s.nodes s.head
  (s.removeValue head.byteSeqNum).map fun (_, freed, s') =>
    (notices ++
      [{ timer := s.head, byteSeqNum := head.byteSeqNum, freed := freed }], s')

/-- The loop over the timers that have run out. -/
def expireLoop (s : Timers) (notices : List Notice) :
    Option (List Notice × Timers) :=
  let head := s.nodes s.head
  if head.dtime ≤ 0 then
    if head.next = 0 then
      s.expireHead notices
    else
      let s := s.setDtime head.next ((s.nodes head.next).dtime + head.dtime)
      match s.expireHead notices with
      | none => none
      | some (notices, s) => by apply expireLoop; exacts [s, notices]
  else
    some (notices, s)
partial_fixpoint

/-- The notices sent, and the list afterwards.  `prev` and `now` are the clock
readings of the last round and of this one; `now` is also returned. -/
def decrement (s : Timers) (prev now : ℚ) : Option (List Notice × Timers) :=
  let dif := now - prev
  if s.head ≠ 0 then
    let s := s.setDtime s.head ((s.nodes s.head).dtime - dif)
    if (s.nodes s.head).dtime = 0 then
      s.expireHead []
    else if (s.nodes s.head).dtime < 0 then
      s.expireLoop []
    else
      some ([], s)
  else
    some ([], s)

end Timers

end UdpTransfer.Timer
