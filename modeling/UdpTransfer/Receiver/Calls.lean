import UdpTransfer.Core.Runs
import UdpTransfer.Receiver.Layout
import UdpTransfer.Receiver.Refinement

/-!
# What a call can do

`addData` first decides on a packet, by a search from `head` on, and then
either leaves the buffer alone or stores the packet and merges.  `seek` is the
decision, a function of the ring before the call.  `Arrival` and `Delivery`
list everything that `addData` and `requestData` can do; every invariant of the
receive buffer is proved from these two.
-/

namespace UdpTransfer.Receiver

open UdpTransfer.Memory
open SBuffer

theorem seek_duplicate {dstart seqnum size : ℤ} {runs : List Extent} :
    ∀ {before}, seek dstart seqnum size before runs = some .duplicate →
      ∃ run ∈ runs, run.firstSeq = seqnum ∧ run.filled = true := by
  induction runs with
  | nil =>
      intro before hseek
      cases hseek
  | cons cur after ih =>
      intro before hseek
      rw [seek] at hseek
      split at hseek
      · rename_i hcur
        exact ⟨cur, by simp, hcur⟩
      · suffices h : ∃ before, seek dstart seqnum size before after =
            some .duplicate by
          obtain ⟨before, h⟩ := h
          obtain ⟨run, hrun, hfound⟩ := ih h
          exact ⟨run, by simp [hrun], hfound⟩
        cases hlimit : signedInt (dstart + 63) with
        | none => simp [hlimit] at hseek
        | some limit =>
            simp only [hlimit, Option.bind_some] at hseek
            split at hseek
            · cases hseek
            · split at hseek
              · cases hfill : fillRun cur seqnum size with
                | none => simp [hfill] at hseek
                | some placed =>
                    simp only [hfill, Option.bind_some] at hseek
                    split at hseek
                    · cases hseek
                    · exact ⟨_, hseek⟩
              · exact ⟨_, hseek⟩

theorem seek_placed {dstart seqnum size : ℤ} {runs : List Extent}
    {found after : List Extent} {placed : Placement} :
    ∀ {before}, seek dstart seqnum size before runs =
        some (.placed found placed after) →
      ∃ mid cur, found = before ++ mid ∧ runs = mid ++ cur :: after ∧
        cur.filled = false ∧ seqnum ≤ dstart + 63 ∧
        Takes cur seqnum size placed := by
  induction runs with
  | nil =>
      intro before hseek
      cases hseek
  | cons cur rest ih =>
      intro before hseek
      rw [seek] at hseek
      split at hseek
      · cases hseek
      · cases hlimit : signedInt (dstart + 63) with
        | none => simp [hlimit] at hseek
        | some limit =>
            obtain ⟨rfl, -⟩ := signedInt_eq_some.1 hlimit
            simp only [hlimit, Option.bind_some] at hseek
            have hlater : seek dstart seqnum size (before ++ [cur]) rest =
                some (.placed found placed after) →
                ∃ mid cur', found = before ++ mid ∧
                  cur :: rest = mid ++ cur' :: after ∧ cur'.filled = false ∧
                  seqnum ≤ dstart + 63 ∧ Takes cur' seqnum size placed := by
              intro h
              obtain ⟨mid, cur', hfound, hrest, hcur'⟩ := ih h
              exact ⟨cur :: mid, cur', by simp [hfound], by simp [hrest],
                hcur'⟩
            split at hseek
            · cases hseek
            · rename_i hwindow
              push Not at hwindow
              split at hseek
              · rename_i hhole
                cases hfill : fillRun cur seqnum size with
                | none => simp [hfill] at hseek
                | some placed' =>
                    simp only [hfill, Option.bind_some] at hseek
                    split at hseek
                    · rename_i htaken
                      cases hseek
                      exact ⟨[], cur, by simp, rfl, hhole, hwindow,
                        takes_of_fillRun hhole hfill htaken⟩
                    · exact hlater hseek
              · exact hlater hseek

/-! ## Copies -/

theorem storeBytes_eq_some_iff (buffer : ℕ → UInt8) {place : Extent}
    {data : List UInt8} (hsize : place.size = data.length)
    (hlength : data.length ≤ 64000) :
    (∃ buffer', storeBytes buffer place data = some buffer') ↔
      0 ≤ place.data ∧ place.data ≤ 64000 := by
  rw [storeBytes]
  split
  · rename_i hwrap
    rw [memcpyIn]
    split
    · rename_i hfirst
      rw [Option.bind_some, memcpyIn, if_pos (by omega)]
      simp only [Option.some.injEq, exists_eq', true_iff]
      omega
    · rename_i hfirst
      simp only [Option.bind_none, reduceCtorEq, exists_false, false_iff]
      omega
  · rename_i hwrap
    rw [memcpyIn]
    split
    · simp only [Option.some.injEq, exists_eq', true_iff]
      omega
    · simp only [reduceCtorEq, exists_false, false_iff]
      omega

theorem storeBytes_circWrite {buffer buffer' : ℕ → UInt8} {place : Extent}
    {data : List UInt8} (hsize : place.size = data.length)
    (hlength : data.length ≤ 64000)
    (hstore : storeBytes buffer place data = some buffer') :
    CircWrite 64000 buffer buffer' place.data data := by
  rw [storeBytes] at hstore
  split at hstore
  · rw [Option.bind_eq_some_iff] at hstore
    obtain ⟨mid, hfirst, hsecond⟩ := hstore
    have hwrite := memcpyIn_split (by omega) (by omega) hfirst hsecond
    rwa [List.take_of_length_le (by omega)] at hwrite
  · have hwrite := memcpyIn_circWrite (by omega) hstore
    rwa [Int.toNat_zero, List.drop_zero, List.take_of_length_le (by omega)]
      at hwrite

theorem fetchBytes_circRead {buffer : ℕ → UInt8} {run : Extent} {count : ℤ}
    {bytes : List UInt8} (hfetch : fetchBytes buffer run count = some bytes) :
    0 ≤ count ∧ bytes = circRead 64000 buffer run.data count.toNat := by
  rw [fetchBytes] at hfetch
  split at hfetch
  · rw [Option.bind_eq_some_iff] at hfetch
    obtain ⟨first, hfirst, hrest⟩ := hfetch
    rw [Option.map_eq_some_iff] at hrest
    obtain ⟨second, hsecond, rfl⟩ := hrest
    have h1 := memcpyOut_bounds hfirst
    have h2 := memcpyOut_bounds hsecond
    exact ⟨by omega, memcpyOut_split hfirst hsecond⟩
  · exact ⟨(memcpyOut_bounds hfetch).2.1, memcpyOut_eq_circRead hfetch⟩


/-! ## The calls on a merged ring -/

/-- Between calls the ring is merged, and its numbers are `int`s. -/
structure Sound (r : RingBuffer) : Prop where
  nonempty : r.runs ≠ []
  bounded : Bounded r.runs
  settled : Settled r.dstart r.runs

theorem Sound.mergeList {r : RingBuffer} (hsound : Sound r) :
    r.mergeList = some r := by
  rw [RingBuffer.mergeList,
    mergeRuns_of_settled hsound.nonempty hsound.settled]
  rfl

theorem nonempty_mergeRuns {dstart : ℤ} {runs merged : List Extent}
    (hmerge : mergeRuns dstart runs = some merged) : merged ≠ [] := by
  cases runs with
  | nil => cases hmerge
  | cons first rest =>
      obtain ⟨first', rest', rfl, -⟩ := head_mergeRuns hmerge
      simp

theorem sound_of_mergeRuns {r : RingBuffer} {runs : List Extent}
    (hmerge : mergeRuns r.dstart runs = some r.runs)
    (hbounded : Bounded runs) : Sound r where
  nonempty := nonempty_mergeRuns hmerge
  bounded := bounded_mergeRuns hmerge hbounded
  settled := settled_mergeRuns hmerge hbounded

theorem Sound.addData_eq {r : RingBuffer} (hsound : Sound r) (seqnum size : ℤ)
    (data : List UInt8) :
    r.addData seqnum size data =
      (seek r.dstart seqnum size [] r.runs).bind (r.act seqnum data) := by
  rw [RingBuffer.addData, hsound.mergeList, Option.bind_some,
    insertWalk_eq_seek]

inductive Arrival (r : RingBuffer) (seqnum : ℤ) (data : List UInt8) :
    ℤ → RingBuffer → Prop where
  | duplicate :
      seek r.dstart seqnum data.length [] r.runs = some .duplicate →
      Arrival r seqnum data 1 r
  | rejected :
      seek r.dstart seqnum data.length [] r.runs = some .rejected →
      Arrival r seqnum data 0 r
  | stored (before after runs : List Extent) (placed : Placement)
      (buffer : ℕ → UInt8) (dend : ℤ) :
      seek r.dstart seqnum data.length [] r.runs =
        some (.placed before placed after) →
      CircWrite 64000 r.buffer buffer placed.node.data data →
      mergeRuns r.dstart (refill before placed after) = some runs →
      Arrival r seqnum data 1
        { buffer := buffer, dstart := r.dstart, dend := dend, runs := runs }

/-- Writing `data` at `place` changes no byte that is still to be delivered. -/
def Harmless (r : RingBuffer) (place : Extent) (data : List UInt8) : Prop :=
  ∀ run ∈ r.runs, run.filled = true → r.dstart ≤ run.firstSeq →
    ∀ j : ℤ, 0 ≤ j → j < run.size → ∀ (i : ℕ) (hi : i < data.length),
      place.data + i ≡ run.data + j [ZMOD 64000] →
      data[i] = circ 64000 r.buffer (run.data + j)

theorem Sound.arrival {r r' : RingBuffer} {seqnum result : ℤ}
    {data : List UInt8} (hsound : Sound r) (hlength : data.length ≤ 64000)
    (hadd : r.addData seqnum data.length data = some (result, r')) :
    Arrival r seqnum data result r' := by
  rw [hsound.addData_eq, Option.bind_eq_some_iff] at hadd
  obtain ⟨answer, hseek, hadd⟩ := hadd
  cases answer with
  | duplicate =>
      cases hadd
      exact .duplicate hseek
  | rejected =>
      cases hadd
      exact .rejected hseek
  | placed before placed after =>
      obtain ⟨mid, cur, -, -, -, -, htakes⟩ := seek_placed hseek
      simp only [RingBuffer.act, RingBuffer.settle, RingBuffer.mergeList,
        Option.bind_eq_some_iff, Option.map_eq_some_iff] at hadd
      obtain ⟨buffer, hstore, _, ⟨runs, hmerge, rfl⟩, heq⟩ := hadd
      cases heq
      exact .stored before after runs placed buffer _ hseek
        (storeBytes_circWrite htakes.node.2.2.1 hlength hstore) hmerge

inductive Delivery (r : RingBuffer) (size : ℤ) :
    List UInt8 → RingBuffer → Prop where
  | nothing : Delivery r size [] r
  | whole (cur : Extent) (rest runs : List Extent) :
      r.runs = cur :: rest → cur.filled = true → cur.firstSeq = r.dstart →
      0 ≤ cur.size →
      mergeRuns (cur.lastSeq + 1) (rest ++ [{ cur with filled := false }]) =
        some runs →
      Delivery r size (circRead 64000 r.buffer cur.data cur.size.toNat)
        { r with dstart := cur.lastSeq + 1, runs := runs }
  | part (cur : Extent) (rest : List Extent) :
      r.runs = cur :: rest → cur.filled = true → cur.firstSeq = r.dstart →
      0 ≤ size → size < cur.size →
      Delivery r size (circRead 64000 r.buffer cur.data size.toNat)
        { r with
          runs := { cur with data := cur.data + size,
                             size := cur.size - size } :: rest }

theorem delivery_of_requestData {r r' : RingBuffer} {size count : ℤ}
    {bytes : List UInt8}
    (hrequest : r.requestData size = some (count, bytes, r')) :
    Delivery r size bytes r' := by
  rw [RingBuffer.requestData] at hrequest
  cases hruns : r.runs with
  | nil => simp [hruns] at hrequest
  | cons cur rest =>
      simp only [hruns] at hrequest
      split at hrequest
      · rename_i hready
        split at hrequest
        · simp only [RingBuffer.mergeList, Option.bind_eq_some_iff,
            Option.map_eq_some_iff, signedInt_eq_some] at hrequest
          obtain ⟨fetched, hfetch, dstart, ⟨rfl, -⟩, _, ⟨runs, hmerge, rfl⟩,
            heq⟩ := hrequest
          cases heq
          obtain ⟨hsize, rfl⟩ := fetchBytes_circRead hfetch
          exact .whole cur rest runs hruns hready.1 hready.2 hsize hmerge
        · rename_i hpart
          rw [Option.map_eq_some_iff] at hrequest
          obtain ⟨fetched, hfetch, heq⟩ := hrequest
          cases heq
          obtain ⟨hsize, rfl⟩ := fetchBytes_circRead hfetch
          exact .part cur rest hruns hready.1 hready.2 hsize (by omega)
      · cases hrequest
        exact .nothing

theorem Sound.of_arrival {r r' : RingBuffer} {seqnum result : ℤ}
    {data : List UInt8} (hsound : Sound r)
    (harrival : Arrival r seqnum data result r') : Sound r' := by
  cases harrival with
  | duplicate _ => exact hsound
  | rejected _ => exact hsound
  | stored before after runs placed buffer dend hseek _ hmerge =>
      obtain ⟨mid, cur, hfound, hruns, -, -, htakes⟩ := seek_placed hseek
      refine sound_of_mergeRuns hmerge (bounded_refill ?_ htakes)
      rw [hfound, List.nil_append, ← hruns]
      exact hsound.bounded

theorem Sound.of_delivery {r r' : RingBuffer} {size : ℤ} {bytes : List UInt8}
    (hsound : Sound r) (hdelivery : Delivery r size bytes r') : Sound r' := by
  have hbounded := hsound.bounded
  cases hdelivery with
  | nothing => exact hsound
  | whole cur rest runs hruns _ _ _ hmerge =>
      rw [hruns] at hbounded
      exact sound_of_mergeRuns hmerge (bounded_deliver hbounded)
  | part cur rest hruns _ _ _ _ =>
      have hsettled := hsound.settled
      rw [hruns] at hbounded hsettled
      refine ⟨by simp, ?_, ?_⟩
      · intro run hrun
        rcases List.mem_cons.1 hrun with rfl | hrun
        · exact hbounded cur (by simp)
        · exact hbounded run (by simp [hrun])
      · cases rest with
        | nil => exact List.isChain_singleton _
        | cons next rest =>
            simpa [Settled, List.isChain_cons_cons, followsOn, sparesHoles]
              using hsettled

end UdpTransfer.Receiver
