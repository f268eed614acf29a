import Mathlib.Data.List.Chain
import UdpTransfer.Receiver.SBuffer

/-!
# The ring as a list of runs

The pointer program of the receive buffer, restated on the list of runs met
from `head` on.  `walk` is the outer loop of `mergeList`: `before` are the runs
the loop has left behind, `current` is where it stands, and the list is what
lies between `current` and `head`.  Where the loop would swallow the node that
`head` points to, or merge a node with itself, there is no result.
-/

namespace UdpTransfer.Receiver

open UdpTransfer.Memory
open SBuffer

structure RingBuffer where
  buffer : ℕ → UInt8
  dstart : ℤ
  dend : ℤ
  /-- The runs of the ring, the one at `head` first. -/
  runs : List Extent

/-- Where the outer loop of `mergeList` is with its current node: just arrived,
in the first inner loop, or in the second. -/
inductive Phase where
  | arrived
  | following
  | spare
  deriving DecidableEq

/-- The run at `head`, once the loop stands at `current` with `before` behind
it. -/
def firstRun (before : List Extent) (current : Extent) : Extent :=
  before.head?.getD current

def walk (dstart : ℤ) (before : List Extent) (current : Extent) :
    Phase → List Extent → Option (List Extent)
  | phase, next :: rest =>
      if phase ≠ .spare ∧ followsOn current next = true then
        walk dstart before (mergeFollowing current next) .following rest
      else if sparesHoles dstart current next = true then
        walk dstart before (mergeSpare current next) .spare rest
      else
        walk dstart (before ++ [current]) next .arrived rest
  | phase, [] =>
      if phase = .following ∧ followsOn current (firstRun before current) = true ∨
          phase ≠ .arrived ∧
            sparesHoles dstart current (firstRun before current) = true then
        none
      else
        some (before ++ [current])

def mergeRuns (dstart : ℤ) : List Extent → Option (List Extent)
  | [] => none
  | current :: rest => walk dstart [] current .arrived rest

/-- How a hole is cut up to take a packet: what remains of it in front, the
node `addData` goes on with, and what remains behind.  The node in the middle
is filled if and only if the packet was placed. -/
structure Placement where
  front : List Extent
  node : Extent
  back : List Extent
  deriving DecidableEq

def fillRun (cur : Extent) (seqnum size : ℤ) : Option Placement :=
  if cur.firstSeq = seqnum then
    if size < cur.size then
      (signedInt (seqnum + 1)).map fun succ =>
        { front := []
          node := { cur with size := size, filled := true, lastSeq := seqnum }
          back := [{ firstSeq := succ, lastSeq := cur.lastSeq,
                     data := cur.data + size, size := cur.size - size,
                     filled := false }] }
    else if size = cur.size then
      some
        { front := []
          node := { cur with filled := true, firstSeq := seqnum,
                             lastSeq := seqnum }
          back := [] }
    else
      some { front := [], node := cur, back := [] }
  else if cur.firstSeq < seqnum ∧ cur.lastSeq > seqnum then
    some
      { front := [holeBefore cur seqnum]
        node := packetInside cur seqnum size
        back := [holeBehind cur seqnum size] }
  else if cur.firstSeq < seqnum ∧ cur.lastSeq = seqnum then
    some
      { front := [{ cur with size := cur.size - size, lastSeq := seqnum - 1 }]
        node := { firstSeq := seqnum, lastSeq := seqnum,
                  data := wrap (cur.data + cur.size - size), size := size,
                  filled := true }
        back := [] }
  else
    some { front := [], node := cur, back := [] }

/-- The ring with a packet in its place, before it is merged. -/
def refill (before : List Extent) (placed : Placement)
    (after : List Extent) : List Extent :=
  before ++ placed.front ++ placed.node :: (placed.back ++ after)

namespace RingBuffer

def initHead : RingBuffer where
  buffer := fun _ => 0
  dstart := 1
  dend := 1
  runs := [{ firstSeq := 1, lastSeq := 64, data := 0, size := 64000,
             filled := false }]

def mergeList (r : RingBuffer) : Option RingBuffer :=
  (mergeRuns r.dstart r.runs).map fun runs => { r with runs := runs }

/-- The packet is written to its place and the ring merged. -/
def settle (r : RingBuffer) (seqnum : ℤ) (data : List UInt8)
    (before : List Extent) (placed : Placement) (after : List Extent) :
    Option (ℤ × RingBuffer) :=
  (storeBytes r.buffer placed.node data).bind fun buffer =>
    (mergeList
      { r with
        buffer := buffer
        dend := if seqnum > r.dend then seqnum else r.dend
        runs := refill before placed after }).map fun r => (1, r)

def insertWalk (seqnum size : ℤ) (data : List UInt8) (r : RingBuffer)
    (before : List Extent) : List Extent → Option (ℤ × RingBuffer)
  | [] => some (0, r)
  | cur :: after =>
      if cur.firstSeq = seqnum ∧ cur.filled = true then
        some (1, r)
      else
        (signedInt (r.dstart + 63)).bind fun limit =>
          if seqnum > limit then
            some (0, r)
          else if cur.filled = false then
            (fillRun cur seqnum size).bind fun placed =>
              if placed.node.filled = true then
                settle r seqnum data before placed after
              else
                insertWalk seqnum size data r (before ++ [cur]) after
          else
            insertWalk seqnum size data r (before ++ [cur]) after

def addData (r : RingBuffer) (seqnum size : ℤ) (data : List UInt8) :
    Option (ℤ × RingBuffer) :=
  (mergeList r).bind fun r => insertWalk seqnum size data r [] r.runs

def requestData (r : RingBuffer) (size : ℤ) :
    Option (ℤ × List UInt8 × RingBuffer) :=
  match r.runs with
  | [] => none
  | cur :: rest =>
      if cur.filled = true ∧ cur.firstSeq = r.dstart then
        if cur.size ≤ size then
          (fetchBytes r.buffer cur cur.size).bind fun bytes =>
            (signedInt (cur.lastSeq + 1)).bind fun dstart =>
              (mergeList
                { r with
                  dstart := dstart
                  runs := rest ++ [{ cur with filled := false }] }).map
                fun r => (cur.size, bytes, r)
        else
          (fetchBytes r.buffer cur size).map fun bytes =>
            (size, bytes,
              { r with
                runs := { cur with data := cur.data + size,
                                   size := cur.size - size } :: rest })
      else
        some (0, [], r)

end RingBuffer

/-! ## The decision of `addData` -/

/-- What `addData` decides to do with a packet. -/
inductive Answer where
  | duplicate
  | rejected
  | placed (before : List Extent) (placed : Placement) (after : List Extent)

def seek (dstart seqnum size : ℤ) (before : List Extent) :
    List Extent → Option Answer
  | [] => some .rejected
  | cur :: after =>
      if cur.firstSeq = seqnum ∧ cur.filled = true then
        some .duplicate
      else
        (signedInt (dstart + 63)).bind fun limit =>
          if seqnum > limit then
            some .rejected
          else if cur.filled = false then
            (fillRun cur seqnum size).bind fun placed =>
              if placed.node.filled = true then
                some (.placed before placed after)
              else
                seek dstart seqnum size (before ++ [cur]) after
          else
            seek dstart seqnum size (before ++ [cur]) after

/-- What `addData` does with a packet once it has decided. -/
def RingBuffer.act (r : RingBuffer) (seqnum : ℤ) (data : List UInt8) :
    Answer → Option (ℤ × RingBuffer)
  | .duplicate => some (1, r)
  | .rejected => some (0, r)
  | .placed before placed after => r.settle seqnum data before placed after

theorem insertWalk_eq_seek {seqnum size : ℤ} {data : List UInt8}
    {r : RingBuffer} (after : List Extent) :
    ∀ before, r.insertWalk seqnum size data before after =
      (seek r.dstart seqnum size before after).bind (r.act seqnum data) := by
  induction after with
  | nil => intro before; rfl
  | cons cur after ih =>
      intro before
      rw [RingBuffer.insertWalk, seek]
      split
      · rfl
      · cases signedInt (r.dstart + 63) with
        | none => rfl
        | some limit =>
            simp only [Option.bind_some]
            split
            · rfl
            · split
              · cases fillRun cur seqnum size with
                | none => rfl
                | some placed =>
                    simp only [Option.bind_some]
                    split
                    · rfl
                    · exact ih _
              · exact ih _

/-! ## Placing a packet -/

/-- The four ways in which a hole takes a packet. -/
inductive Takes (cur : Extent) (seqnum size : ℤ) : Placement → Prop where
  | beginning : cur.firstSeq = seqnum → size < cur.size → seqnum < intMax →
      Takes cur seqnum size
        { front := []
          node := { cur with size := size, filled := true, lastSeq := seqnum }
          back := [{ firstSeq := seqnum + 1, lastSeq := cur.lastSeq,
                     data := cur.data + size, size := cur.size - size,
                     filled := false }] }
  | whole : cur.firstSeq = seqnum → size = cur.size →
      Takes cur seqnum size
        { front := []
          node := { cur with filled := true, lastSeq := seqnum }
          back := [] }
  | middle : cur.firstSeq < seqnum → seqnum < cur.lastSeq →
      Takes cur seqnum size
        { front := [holeBefore cur seqnum]
          node := packetInside cur seqnum size
          back := [holeBehind cur seqnum size] }
  | ending : cur.firstSeq < seqnum → cur.lastSeq = seqnum →
      Takes cur seqnum size
        { front := [{ cur with size := cur.size - size, lastSeq := seqnum - 1 }]
          node := { firstSeq := seqnum, lastSeq := seqnum,
                    data := wrap (cur.data + cur.size - size), size := size,
                    filled := true }
          back := [] }

theorem takes_of_fillRun {cur : Extent} {seqnum size : ℤ} {placed : Placement}
    (hhole : cur.filled = false)
    (hfill : fillRun cur seqnum size = some placed)
    (htaken : placed.node.filled = true) : Takes cur seqnum size placed := by
  rw [fillRun] at hfill
  split at hfill
  · rename_i hfirst
    split at hfill
    · rename_i hsize
      rw [Option.map_eq_some_iff] at hfill
      obtain ⟨number, hnumber, rfl⟩ := hfill
      rw [signedInt_eq_some] at hnumber
      rw [hnumber.1]
      exact .beginning hfirst hsize (by simp only [intMax]; omega)
    · split at hfill
      · rename_i hsize
        cases hfill
        rw [← hfirst] at *
        exact .whole rfl hsize
      · cases hfill
        rw [hhole] at htaken
        cases htaken
  · split at hfill
    · rename_i hinside
      cases hfill
      exact .middle hinside.1 hinside.2
    · split at hfill
      · rename_i hend
        cases hfill
        exact .ending hend.1 hend.2
      · cases hfill
        rw [hhole] at htaken
        cases htaken

theorem Takes.node {cur : Extent} {seqnum size : ℤ} {placed : Placement}
    (htakes : Takes cur seqnum size placed) :
    placed.node.firstSeq = seqnum ∧ placed.node.lastSeq = seqnum ∧
      placed.node.size = size ∧ placed.node.filled = true := by
  cases htakes with
  | beginning hfirst hsize hmax => exact ⟨hfirst, rfl, rfl, rfl⟩
  | whole hfirst hsize => exact ⟨hfirst, rfl, hsize.symm, rfl⟩
  | middle hfirst hlast => exact ⟨rfl, rfl, rfl, rfl⟩
  | ending hfirst hlast => exact ⟨rfl, rfl, rfl, rfl⟩

/-! ## Settled rings -/

/-- No node of the ring can be merged with the one behind it. -/
def Settled (dstart : ℤ) (runs : List Extent) : Prop :=
  runs.IsChain fun current next =>
    followsOn current next = false ∧ sparesHoles dstart current next = false

/-- Sequence numbers on the ring are `int`s. -/
def Bounded (runs : List Extent) : Prop :=
  ∀ run ∈ runs, run.firstSeq ≤ intMax ∧ run.lastSeq ≤ intMax

theorem forall_mem_refill {before after : List Extent} {placed : Placement}
    {P : Extent → Prop} :
    (∀ run ∈ refill before placed after, P run) ↔
      (∀ run ∈ before, P run) ∧
        (∀ run ∈ placed.front ++ placed.node :: placed.back, P run) ∧
        ∀ run ∈ after, P run := by
  simp only [refill, List.forall_mem_append, List.forall_mem_cons]
  tauto

theorem bounded_merge {before after : List Extent}
    {current next merged : Extent}
    (hbounded : Bounded (before ++ current :: next :: after))
    (hfirst : merged.firstSeq = current.firstSeq)
    (hlast : merged.lastSeq ≤ intMax) :
    Bounded (before ++ merged :: after) := by
  intro run hrun
  simp only [List.mem_append, List.mem_cons] at hrun
  rcases hrun with hrun | rfl | hrun
  · exact hbounded run (by simp [hrun])
  · rw [hfirst]
    exact ⟨(hbounded current (by simp)).1, hlast⟩
  · exact hbounded run (by simp [hrun])

theorem bounded_refill {cur : Extent} {seqnum size : ℤ} {placed : Placement}
    {before after : List Extent} (hbounded : Bounded (before ++ cur :: after))
    (htakes : Takes cur seqnum size placed) :
    Bounded (refill before placed after) := by
  have hcur := hbounded cur (by simp)
  have hpieces : Bounded (placed.front ++ placed.node :: placed.back) := by
    cases htakes with
    | beginning hfirst hsize hmax =>
        simp only [Bounded, List.nil_append, List.mem_cons, List.not_mem_nil,
          or_false, forall_eq_or_imp, forall_eq]
        omega
    | whole hfirst hsize =>
        simp only [Bounded, List.nil_append, List.mem_singleton, forall_eq]
        omega
    | middle hfirst hlast =>
        simp only [Bounded, List.cons_append, List.nil_append, List.mem_cons,
          List.not_mem_nil, or_false, forall_eq_or_imp, forall_eq, holeBefore,
          packetInside, holeBehind]
        omega
    | ending hfirst hlast =>
        simp only [Bounded, List.cons_append, List.nil_append, List.mem_cons,
          List.not_mem_nil, or_false, forall_eq_or_imp, forall_eq]
        omega
  rw [Bounded, List.forall_mem_append, List.forall_mem_cons] at hbounded
  exact forall_mem_refill.2 ⟨hbounded.1, hpieces, hbounded.2.2⟩

/-- Whether a node can be merged into the one in front of it depends on its
first number and its kind alone. -/
theorem Settled.replace_last {dstart : ℤ} {runs : List Extent}
    {last last' : Extent} (hfirst : last'.firstSeq = last.firstSeq)
    (hfilled : last'.filled = last.filled)
    (hsettled : Settled dstart (runs ++ [last])) :
    Settled dstart (runs ++ [last']) := by
  rw [Settled, List.isChain_append] at hsettled ⊢
  refine ⟨hsettled.1, List.isChain_singleton _, ?_⟩
  intro front hfront back hback
  simp only [List.head?_cons, Option.mem_some_iff] at hback
  subst hback
  have hpair := hsettled.2.2 front hfront last (by simp)
  simpa only [followsOn, sparesHoles, hfirst, hfilled] using hpair

theorem Settled.concat {dstart : ℤ} {runs : List Extent}
    {current next : Extent} (hsettled : Settled dstart (runs ++ [current]))
    (hfollow : followsOn current next = false)
    (hspare : sparesHoles dstart current next = false) :
    Settled dstart (runs ++ [current] ++ [next]) := by
  rw [Settled, List.isChain_append]
  refine ⟨hsettled, List.isChain_singleton _, ?_⟩
  intro front hfront back hback
  simp only [List.getLast?_concat, Option.mem_some_iff] at hfront
  simp only [List.head?_cons, Option.mem_some_iff] at hback
  subst hfront hback
  exact ⟨hfollow, hspare⟩

@[simp]
theorem mergeFollowing_firstSeq (current next : Extent) :
    (mergeFollowing current next).firstSeq = current.firstSeq := rfl

@[simp]
theorem mergeFollowing_filled (current next : Extent) :
    (mergeFollowing current next).filled = current.filled := rfl

@[simp]
theorem mergeFollowing_lastSeq (current next : Extent) :
    (mergeFollowing current next).lastSeq = next.lastSeq := rfl

@[simp]
theorem mergeSpare_firstSeq (current next : Extent) :
    (mergeSpare current next).firstSeq = current.firstSeq := rfl

@[simp]
theorem mergeSpare_filled (current next : Extent) :
    (mergeSpare current next).filled = current.filled := rfl

@[simp]
theorem mergeSpare_lastSeq (current next : Extent) :
    (mergeSpare current next).lastSeq = intMax := rfl

theorem followsOn_iff {current next : Extent} :
    followsOn current next = true ↔
      current.lastSeq = next.firstSeq - 1 ∧ current.filled = next.filled := by
  simp [followsOn]

theorem sparesHoles_iff {dstart : ℤ} {current next : Extent} :
    sparesHoles dstart current next = true ↔
      current.filled = false ∧ next.filled = false ∧
        dstart ≠ current.firstSeq ∧ dstart ≠ next.firstSeq := by
  simp [sparesHoles]

end UdpTransfer.Receiver
