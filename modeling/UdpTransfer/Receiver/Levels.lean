import UdpTransfer.Core.Machines
import UdpTransfer.Receiver.Session

/-!
# The ring of nodes and the list of runs

The same operations on the circular list of `sbuffer.c` and on the list of runs
that a walk round it meets.  Over any sequence of calls, with packets of any
length up to 64000 bytes, the two give the same results and hand out the same
bytes, and a call that does not return on one side does not return on the other.
-/

namespace UdpTransfer.Receiver

open UdpTransfer.Machines

/-- A call, with all that it is given.  `tcpds` gives it no more bytes than the
datagram has. -/
inductive Operation where
  | addData (seqnum : ℤ) (data : List UInt8) (hlength : data.length ≤ 64000)
  | requestData (size : ℤ)

/-- `sbuffer.c`: the return value of each call, and the bytes left at `d`. -/
def nodeLevel : Machine SBuffer Operation (ℤ × List UInt8) where
  start := SBuffer.initHead
  op s
    | .addData seqnum data _ =>
        (s.addData seqnum data.length data).map fun (result, s) =>
          ((result, []), s)
    | .requestData size =>
        (s.requestData size).map fun (count, bytes, s) => ((count, bytes), s)

def runLevel : Machine RingBuffer Operation (ℤ × List UInt8) where
  start := RingBuffer.initHead
  op r
    | .addData seqnum data _ =>
        (r.addData seqnum data.length data).map fun (result, r) =>
          ((result, []), r)
    | .requestData size =>
        (r.requestData size).map fun (count, bytes, r) => ((count, bytes), r)

/-! ## One call -/

section

variable {s : SBuffer}

theorem Merged.map_addData (hmerged : Merged s) (seqnum size : ℤ)
    (data : List UInt8) :
    (s.addData seqnum size data).map (Prod.map id SBuffer.toRing) =
      s.toRing.addData seqnum size data := by
  cases hleft : s.addData seqnum size data with
  | some answer =>
      obtain ⟨result, s'⟩ := answer
      exact (hmerged.toRing_addData hleft).symm
  | none =>
      cases hright : s.toRing.addData seqnum size data with
      | none => rfl
      | some answer =>
          obtain ⟨result, r'⟩ := answer
          obtain ⟨s', hsome, -⟩ := hmerged.exists_addData hright
          rw [hleft] at hsome
          cases hsome

theorem Merged.map_requestData (hmerged : Merged s) (size : ℤ) :
    (s.requestData size).map (Prod.map id (Prod.map id SBuffer.toRing)) =
      s.toRing.requestData size := by
  cases hleft : s.requestData size with
  | some answer =>
      obtain ⟨count, bytes, s'⟩ := answer
      exact (hmerged.toRing_requestData hleft).symm
  | none =>
      cases hright : s.toRing.requestData size with
      | none => rfl
      | some answer =>
          obtain ⟨count, bytes, r'⟩ := answer
          obtain ⟨s', hsome, -⟩ := hmerged.exists_requestData hright
          rw [hleft] at hsome
          cases hsome

end

/-! ## Any sequence of calls -/

/-- The walk round the ring maps one machine to the other. -/
def walkRound : Abstraction nodeLevel runLevel where
  toFun := SBuffer.toRing
  invariant := Merged
  invariant_start := merged_initHead
  map_start := SBuffer.initHead_represents.toRing_eq
  invariant_op := by
    intro s s' c answer hmerged hop
    cases c with
    | addData seqnum data hlength =>
        obtain ⟨⟨result, mid⟩, hadd, heq⟩ := Option.map_eq_some_iff.1 hop
        cases heq
        exact (hmerged.addData hlength hadd).2
    | requestData size =>
        obtain ⟨⟨count, bytes, mid⟩, hrequest, heq⟩ :=
          Option.map_eq_some_iff.1 hop
        cases heq
        exact (hmerged.requestData hrequest).2
  map_op := by
    intro s c hmerged
    cases c with
    | addData seqnum data hlength =>
        simp only [nodeLevel, runLevel, ← hmerged.map_addData, Option.map_map]
        rfl
    | requestData size =>
        simp only [nodeLevel, runLevel, ← hmerged.map_requestData, Option.map_map]
        rfl

/-- Over any sequence of calls the circular list of nodes answers as the list of
runs does, and is left as that list. -/
theorem nodeLevel_run (calls : List Operation) :
    (nodeLevel.run SBuffer.initHead calls).map (Prod.map id SBuffer.toRing) =
      runLevel.run RingBuffer.initHead calls :=
  walkRound.map_run calls

end UdpTransfer.Receiver
