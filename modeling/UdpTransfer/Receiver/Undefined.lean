import UdpTransfer.Receiver.Session

/-!
# Calls without a result

A call has no result in three ways: one of its copies leaves the buffer, one of
its merges runs on, or a sequence number leaves the range of `int`.  The copies
and the merges below are those that the program makes, in the states in which
it makes them.  On a merged ring each of the three can be read off the list of
runs.
-/

namespace UdpTransfer.Receiver

open UdpTransfer.Loop
open UdpTransfer.Memory
open SBuffer

/-! ## Copies -/

/-- The buffer side of a `memcpy`. -/
structure Copy where
  offset : ℤ
  len : ℤ
  deriving DecidableEq

def Copy.InBuffer (copy : Copy) : Prop :=
  0 ≤ copy.len ∧ 0 ≤ copy.offset ∧ copy.offset + copy.len ≤ 64000

/-- The copies that bring a packet to its place. -/
def storeCopies (place : Extent) : List Copy :=
  if place.data + place.size > 64000 then
    [⟨place.data, 64000 - place.data⟩,
      ⟨0, place.size - (64000 - place.data)⟩]
  else
    [⟨place.data, place.size⟩]

/-- The copies that bring `count` bytes of a run to the destination. -/
def fetchCopies (run : Extent) (count : ℤ) : List Copy :=
  if run.size + run.data > 64000 then
    [⟨run.data, 64000 - run.data⟩, ⟨0, count - (64000 - run.data)⟩]
  else
    [⟨run.data, count⟩]

/-- The bytes of a packet reach the buffer exactly when the copies lie in it. -/
theorem storeBytes_iff_inBuffer (buffer : ℕ → UInt8) {place : Extent}
    {data : List UInt8} (hsize : place.size = data.length)
    (hlength : data.length ≤ 64000) :
    (∃ buffer', storeBytes buffer place data = some buffer') ↔
      ∀ copy ∈ storeCopies place, copy.InBuffer := by
  rw [storeBytes_eq_some_iff buffer hsize hlength, storeCopies]
  split
  · simp only [List.forall_mem_cons, Copy.InBuffer, List.not_mem_nil,
      false_imp_iff, implies_true, and_true]
    omega
  · simp only [List.mem_singleton, forall_eq, Copy.InBuffer]
    omega

/-- The bytes of a run are handed out exactly when the copies lie in the
buffer. -/
theorem fetchBytes_iff_inBuffer (buffer : ℕ → UInt8) (run : Extent) (count : ℤ) :
    (∃ bytes, fetchBytes buffer run count = some bytes) ↔
      ∀ copy ∈ fetchCopies run count, copy.InBuffer := by
  rw [fetchBytes, fetchCopies]
  split
  · simp only [List.forall_mem_cons, Copy.InBuffer, List.not_mem_nil,
      false_imp_iff, implies_true, and_true]
    by_cases hfirst : 0 ≤ run.data ∧ 0 ≤ 64000 - run.data ∧
        run.data + (64000 - run.data) ≤ 64000
    · by_cases hsecond : 0 ≤ count - (64000 - run.data) ∧
          0 + (count - (64000 - run.data)) ≤ 64000
      · simp only [memcpyOut, if_pos hfirst, Option.bind_some, le_refl,
          true_and, if_pos hsecond, Option.map_some, Option.some.injEq,
          exists_eq', true_iff]
        omega
      · simp only [memcpyOut, if_pos hfirst, Option.bind_some, le_refl,
          true_and, if_neg hsecond, Option.map_none, reduceCtorEq,
          exists_false, false_iff]
        omega
    · simp only [memcpyOut, if_neg hfirst, Option.bind_none, reduceCtorEq,
        exists_false, false_iff]
      omega
  · simp only [List.mem_singleton, forall_eq, Copy.InBuffer]
    by_cases hbounds : 0 ≤ run.data ∧ 0 ≤ count ∧ run.data + count ≤ 64000
    · simp only [memcpyOut, if_pos hbounds, Option.some.injEq, exists_eq',
        true_iff]
      omega
    · simp only [memcpyOut, if_neg hbounds, reduceCtorEq, exists_false,
        false_iff]
      omega

/-! ## The parts of a call -/

/-- The walk of `addData` ends at node `current` of `s'`, which is to take
packet `seqnum`. -/
def PlacedAt (s : SBuffer) (seqnum : ℤ) (s' : SBuffer) (current : ℕ) : Prop :=
  ∃ merged, mergeList s = some merged ∧
    walkFrom seqnum 1000 merged merged.head = some (.placed s' current)

/-- Every `memcpy` of the call lies in the buffer, and a request is not answered
with more bytes than it asks for. -/
def CopiesInBuffer (payload : ℤ → Payload) (s : SBuffer) : Call → Prop
  | .addData seqnum => ∀ s' current, PlacedAt s seqnum s' current →
      (∀ copy ∈ storeCopies (s'.nodes current).toExtent, copy.InBuffer) ∧
        ∃ buffer, storeBytes s'.buffer (s'.nodes current).toExtent
          (payload seqnum).toList = some buffer
  | .requestData size => s.Ready →
      (∀ copy ∈ fetchCopies (s.nodes s.head).toExtent
          (min (s.nodes s.head).size size), copy.InBuffer) ∧
        ∃ bytes, fetchBytes s.buffer (s.nodes s.head).toExtent
          (min (s.nodes s.head).size size) = some bytes ∧
          (bytes.length : ℤ) ≤ size

/-- The buffers from which a call enters `mergeList`.  What has been copied
into the buffer before makes no difference to the ring. -/
inductive Merges (s : SBuffer) : Call → SBuffer → Prop where
  | arrived (seqnum : ℤ) : Merges s (.addData seqnum) s
  | placed (seqnum : ℤ) (s' : SBuffer) (current : ℕ) (buffer : ℕ → UInt8) :
      PlacedAt s seqnum s' current →
      Merges s (.addData seqnum) (s'.stored seqnum buffer)
  | delivered (size dstart : ℤ) :
      s.Ready → (s.nodes s.head).size ≤ size →
      signedInt ((s.nodes s.head).lastSeq + 1) = some dstart →
      Merges s (.requestData size) (s.delivered dstart)

/-- Every `mergeList` of the call comes to its end, and the node that `head`
points to is still on the ring. -/
def MergesFinish (s : SBuffer) (c : Call) : Prop :=
  ∀ b, Merges s c b → ∃ b', mergeList b = some b' ∧ b'.head = b.head ∧
    ∃ cells, b'.OnRing cells

/-- A sequence number of the call leaves the range of `int`: the end of the
window, the number behind a stored packet, or that behind a delivered run. -/
def Overflows (r : RingBuffer) : Call → Prop
  | .addData seqnum => seek r.dstart seqnum 1000 [] r.runs = none
  | .requestData size => ∃ cur ∈ r.runs.head?, cur.filled = true ∧
      cur.firstSeq = r.dstart ∧ cur.size ≤ size ∧
      signedInt (cur.lastSeq + 1) = none

/-! ## Merges -/

/-- A loop that takes nodes off the ring leaves `head` where it is. -/
theorem head_of_absorbLoop {cond : SBuffer → Bool} {current : ℕ}
    {merged : SBuffer → Extent} {s s' : SBuffer}
    (hrun : whileLoop cond
      (fun s => some (s.absorbNext current (merged s))) s = some s') :
    s'.head = s.head := by
  refine (whileLoop_invariant (I := fun t => t.head = s.head) ?_ rfl hrun).1
  intro t next hhead _ hnext
  cases hnext
  exact hhead

theorem mergeList_head {s s' : SBuffer} (hmerge : mergeList s = some s') :
    s'.head = s.head := by
  obtain ⟨⟨_, current⟩, hrun, rfl⟩ := Option.map_eq_some_iff.1 hmerge
  refine (whileLoop_invariant (I := fun state => state.1.head = s.head) ?_ rfl
    hrun).1
  rintro ⟨s₁, current⟩ ⟨_, _⟩ hhead - hround
  simp only [Option.bind_eq_some_iff] at hround
  obtain ⟨s₂, hfollowing, s₃, hspare, heq⟩ := hround
  cases heq
  have hfollowed : s₂.head = s₁.head := head_of_absorbLoop hfollowing
  exact ((head_of_absorbLoop hspare).trans hfollowed).trans hhead

/-- The merge on the heap comes to its end exactly when the merge of the runs
does. -/
theorem SBuffer.Represents.mergeList_iff {s : SBuffer} {r : RingBuffer}
    (hrep : Represents s r) (hbounded : Bounded r.runs) :
    (∃ s', mergeList s = some s' ∧ s'.head = s.head ∧
        ∃ cells, s'.OnRing cells) ↔
      ∃ runs, mergeRuns r.dstart r.runs = some runs := by
  have hrel := mergeList_refines hrep hbounded
  rw [RingBuffer.mergeList] at hrel
  constructor
  · rintro ⟨s', hmerge, -⟩
    rw [hmerge] at hrel
    cases hruns : mergeRuns r.dstart r.runs with
    | none =>
        rw [hruns] at hrel
        cases hrel
    | some runs => exact ⟨runs, rfl⟩
  · rintro ⟨runs, hruns⟩
    rw [hruns] at hrel
    cases hmerge : mergeList s with
    | none =>
        rw [hmerge] at hrel
        cases hrel
    | some s' =>
        rw [hmerge] at hrel
        cases hrel with
        | some hmerged =>
            obtain ⟨cells, hring, -⟩ := hmerged
            exact ⟨s', rfl, mergeList_head hmerge, cells, hring⟩

/-! ## Merged rings -/

section Merged

variable {s : SBuffer} (hmerged : Merged s)

include hmerged

theorem Merged.ring : ∃ rest, s.OnRing (s.head :: rest) ∧
    s.toRing = s.view (s.head :: rest) := by
  obtain ⟨cells, hring, hview⟩ := hmerged.represents
  cases cells with
  | nil => exact absurd rfl hring.cycle.nonempty
  | cons current rest =>
      obtain rfl : current = s.head := hring.cycle.head_eq
      exact ⟨rest, hring, hview.symm⟩

theorem Merged.ready_iff : s.Ready ↔ ∃ cur ∈ s.toRing.runs.head?,
    cur.filled = true ∧ cur.firstSeq = s.dstart := by
  obtain ⟨rest, -, hview⟩ := hmerged.ring
  rw [hview]
  simp [Ready, view, extent]

/-- Merging a merged ring changes nothing. -/
theorem Merged.mergeList_eq : mergeList s = some s := by
  obtain ⟨rest, hring, hview⟩ := hmerged.ring
  have hsettled := hmerged.sound.settled
  rw [hview] at hsettled
  obtain ⟨last, hrun⟩ := mergeFrom_settled rest [] s.head hring hsettled
  rw [mergeList, hrun]
  rfl

/-- The walk on the heap against the decision on the runs. -/
theorem Merged.walked (seqnum : ℤ) : ∃ cells,
    s.toRing.runs = cells.map s.extent ∧
    Option.Rel (WalkedTo s cells seqnum 1000) (walkFrom seqnum 1000 s s.head)
      (seek s.dstart seqnum 1000 [] s.toRing.runs) := by
  obtain ⟨rest, hring, hview⟩ := hmerged.ring
  refine ⟨s.head :: rest, by rw [hview]; rfl, ?_⟩
  rw [hview]
  exact walkFrom_refines rest [] s.head hring

end Merged

/-- Node `current` of `s'` is the one that the decision places: it is to take
the packet, and the ring shows the refilled runs. -/
structure Shows (s s' : SBuffer) (seqnum : ℤ) (current : ℕ)
    (before : List Extent) (placed : Placement) (after : List Extent) :
    Prop where
  node_eq : (s'.nodes current).toExtent = placed.node
  buffer_eq : s'.buffer = s.buffer
  size_eq : placed.node.size = 1000
  bounded : Bounded (refill before placed after)
  ring : ∀ buffer, Represents (s'.stored seqnum buffer)
    { s.toRing with
      buffer := buffer
      dend := if seqnum > s.dend then seqnum else s.dend
      runs := refill before placed after }

section Merged

variable {s : SBuffer} (hmerged : Merged s) {seqnum : ℤ}

include hmerged

theorem Merged.shows {cells : List ℕ} {s' : SBuffer} {current : ℕ}
    {before after : List Extent} {placed : Placement}
    (hruns : s.toRing.runs = cells.map s.extent)
    (hwalked : WalkedTo s cells seqnum 1000 (.placed s' current)
      (.placed before placed after)) :
    Shows s s' seqnum current before placed after := by
  cases hwalked with
  | placed before after front back hole result placed heq hfilled htakes =>
      have hbounded := hmerged.sound.bounded
      rw [hruns, heq, List.map_append, List.map_cons] at hbounded
      refine ⟨hfilled.node_eq, hfilled.buffer_eq, htakes.node.2.2.1,
        bounded_refill hbounded htakes, fun buffer => ?_⟩
      have hrep := hfilled.stored seqnum buffer
      rw [← heq] at hrep
      exact hrep

/-- The walk on the heap finds a place where the decision does. -/
theorem Merged.placed {s' : SBuffer} {current : ℕ}
    (hplaced : PlacedAt s seqnum s' current) : ∃ before placed after,
      seek s.dstart seqnum 1000 [] s.toRing.runs =
        some (.placed before placed after) ∧
      Shows s s' seqnum current before placed after := by
  obtain ⟨merged, hmerge, hwalk⟩ := hplaced
  rw [hmerged.mergeList_eq] at hmerge
  cases hmerge
  obtain ⟨cells, hruns, hrel⟩ := hmerged.walked seqnum
  rw [hwalk] at hrel
  generalize hseek : seek s.dstart seqnum 1000 [] s.toRing.runs = right at hrel
  cases hrel with
  | @some _ answer hwalked =>
      cases answer with
      | duplicate => cases hwalked
      | rejected => cases hwalked
      | placed before placed after =>
          exact ⟨before, placed, after, rfl,
            hmerged.shows hruns hwalked⟩

theorem Merged.exists_placed {before after : List Extent} {placed : Placement}
    (hseek : seek s.dstart seqnum 1000 [] s.toRing.runs =
      some (.placed before placed after)) : ∃ s' current,
      PlacedAt s seqnum s' current ∧
        Shows s s' seqnum current before placed after := by
  obtain ⟨cells, hruns, hrel⟩ := hmerged.walked seqnum
  rw [hseek] at hrel
  generalize hwalk : walkFrom seqnum 1000 s s.head = left at hrel
  cases hrel with
  | @some walked _ hwalked =>
      cases walked with
      | answered result s' => cases hwalked
      | placed s' current =>
          exact ⟨s', current, ⟨s, hmerged.mergeList_eq, hwalk⟩,
            hmerged.shows hruns hwalked⟩

/-- A packet that is turned away changes nothing. -/
theorem Merged.addData_rejected {data : List UInt8}
    (hseek : seek s.dstart seqnum 1000 [] s.toRing.runs = some .rejected) :
    s.addData seqnum 1000 data = some (0, s) := by
  obtain ⟨count, hcount⟩ := hmerged.represents.countNodes
  rw [SBuffer.addData, hmerged.mergeList_eq, Option.bind_some, hcount,
    Option.bind_some, insertFrom_eq]
  obtain ⟨cells, -, hrel⟩ := hmerged.walked seqnum
  rw [hseek] at hrel
  generalize walkFrom seqnum 1000 s s.head = left at hrel ⊢
  cases hrel with
  | some hwalked =>
      cases hwalked
      rfl

/-! ### The merges of a call -/

theorem Merged.mergesFinish_addData_iff :
    MergesFinish s (.addData seqnum) ↔ ∀ before placed after,
      seek s.dstart seqnum 1000 [] s.toRing.runs =
        some (.placed before placed after) →
      ∃ runs, mergeRuns s.dstart (refill before placed after) = some runs := by
  constructor
  · intro hfinish before placed after hseek
    obtain ⟨s', current, hplaced, hshows⟩ := hmerged.exists_placed hseek
    exact ((hshows.ring s.buffer).mergeList_iff hshows.bounded).1
      (hfinish _ (.placed seqnum s' current s.buffer hplaced))
  · intro hreturns b hb
    cases hb with
    | arrived =>
        obtain ⟨rest, hring, -⟩ := hmerged.ring
        exact ⟨s, hmerged.mergeList_eq, rfl, _, hring⟩
    | placed _ s' current buffer hplaced =>
        obtain ⟨before, placed, after, hseek, hshows⟩ := hmerged.placed hplaced
        exact ((hshows.ring buffer).mergeList_iff hshows.bounded).2
          (hreturns before placed after hseek)

theorem Merged.mergesFinish_requestData_iff {size : ℤ} :
    MergesFinish s (.requestData size) ↔ ∀ cur rest dstart,
      s.toRing.runs = cur :: rest → cur.filled = true →
      cur.firstSeq = s.dstart → cur.size ≤ size →
      signedInt (cur.lastSeq + 1) = some dstart →
      ∃ runs, mergeRuns dstart (rest ++ [{ cur with filled := false }]) =
        some runs := by
  obtain ⟨rest, hring, hview⟩ := hmerged.ring
  have hbounded : Bounded ((s.head :: rest).map s.extent) := by
    have hbounded := hmerged.sound.bounded
    rwa [hview] at hbounded
  have hreturns : ∀ dstart, _ ↔ _ := fun dstart =>
    (hring.delivered dstart).mergeList_iff (bounded_deliver hbounded)
  constructor
  · intro hfinish cur rest' dstart hruns hfilled hfirst hsize hnumber
    rw [hview] at hruns
    cases hruns
    exact (hreturns dstart).1
      (hfinish _ (.delivered size dstart ⟨hfilled, hfirst⟩ hsize hnumber))
  · intro hruns b hb
    cases hb with
    | delivered _ dstart hready hsize hnumber =>
        exact (hreturns dstart).2 (hruns _ _ dstart (by rw [hview]; rfl)
          hready.1 hready.2 hsize hnumber)

/-! ### The copies of a call -/

theorem Merged.copiesInBuffer_addData_iff (payload : ℤ → Payload) :
    CopiesInBuffer payload s (.addData seqnum) ↔ ∀ before placed after,
      seek s.dstart seqnum 1000 [] s.toRing.runs =
        some (.placed before placed after) →
      ∀ copy ∈ storeCopies placed.node, copy.InBuffer := by
  have hlength := length_payload (payload seqnum)
  constructor
  · intro hcopies before placed after hseek
    obtain ⟨s', current, hplaced, hshows⟩ := hmerged.exists_placed hseek
    rw [← hshows.node_eq]
    exact (hcopies s' current hplaced).1
  · intro hinside s' current hplaced
    obtain ⟨before, placed, after, hseek, hshows⟩ := hmerged.placed hplaced
    have hcopies := hinside before placed after hseek
    rw [hshows.node_eq]
    refine ⟨hcopies, (storeBytes_iff_inBuffer _ ?_ ?_).2 hcopies⟩
    · rw [hshows.size_eq, hlength]
    · omega

omit hmerged in
/-- A fetch that succeeds hands out the bytes it was asked for. -/
theorem length_fetchBytes {buffer : ℕ → UInt8} {run : Extent} {count : ℤ}
    {bytes : List UInt8} (hfetch : fetchBytes buffer run count = some bytes) :
    (bytes.length : ℤ) = count := by
  obtain ⟨hcount, rfl⟩ := fetchBytes_circRead hfetch
  rw [length_circRead, Int.toNat_of_nonneg hcount]

theorem Merged.copiesInBuffer_requestData_iff (payload : ℤ → Payload)
    {size : ℤ} :
    CopiesInBuffer payload s (.requestData size) ↔ ∀ cur rest,
      s.toRing.runs = cur :: rest → cur.filled = true →
      cur.firstSeq = s.dstart →
      ∀ copy ∈ fetchCopies cur (min cur.size size), copy.InBuffer := by
  obtain ⟨rest, hring, hview⟩ := hmerged.ring
  constructor
  · intro hcopies cur rest' hruns hfilled hfirst
    rw [hview] at hruns
    cases hruns
    exact (hcopies ⟨hfilled, hfirst⟩).1
  · intro hinside hready
    have hcopies := hinside _ _ (by rw [hview]; rfl) hready.1 hready.2
    obtain ⟨bytes, hfetch⟩ := (fetchBytes_iff_inBuffer s.buffer _ _).2 hcopies
    refine ⟨hcopies, bytes, hfetch, ?_⟩
    rw [length_fetchBytes hfetch]
    exact min_le_right _ _

end Merged

/-! ## The calls -/

theorem rel_eq_none_iff {α β : Type*} {R : α → β → Prop} {left : Option α}
    {right : Option β} (hrel : Option.Rel R left right) :
    left = none ↔ right = none := by
  cases hrel <;> simp

theorem settle_eq_none_iff {r : RingBuffer} {seqnum : ℤ} {data : List UInt8}
    {before after : List Extent} {placed : Placement} :
    r.settle seqnum data before placed after = none ↔
      storeBytes r.buffer placed.node data = none ∨
        mergeRuns r.dstart (refill before placed after) = none := by
  rw [RingBuffer.settle]
  cases storeBytes r.buffer placed.node data with
  | none => simp
  | some buffer => simp [RingBuffer.mergeList]

theorem Sound.addData_eq_none_iff {r : RingBuffer} (hsound : Sound r)
    {seqnum : ℤ} {data : List UInt8} :
    r.addData seqnum 1000 data = none ↔
      seek r.dstart seqnum 1000 [] r.runs = none ∨
        ∃ before placed after, seek r.dstart seqnum 1000 [] r.runs =
            some (.placed before placed after) ∧
          (storeBytes r.buffer placed.node data = none ∨
            mergeRuns r.dstart (refill before placed after) = none) := by
  rw [hsound.addData_eq]
  cases seek r.dstart seqnum 1000 [] r.runs with
  | none => simp
  | some answer =>
      cases answer with
      | duplicate => simp [RingBuffer.act]
      | rejected => simp [RingBuffer.act]
      | placed before placed after =>
          rw [Option.bind_some, RingBuffer.act, settle_eq_none_iff]
          simp

theorem ring_requestData_eq_none_iff {r : RingBuffer} {size : ℤ} {cur : Extent}
    {rest : List Extent} (hruns : r.runs = cur :: rest) :
    r.requestData size = none ↔ cur.filled = true ∧ cur.firstSeq = r.dstart ∧
      (fetchBytes r.buffer cur (min cur.size size) = none ∨ cur.size ≤ size ∧
        (signedInt (cur.lastSeq + 1) = none ∨
          ∃ dstart, signedInt (cur.lastSeq + 1) = some dstart ∧
            mergeRuns dstart (rest ++ [{ cur with filled := false }]) =
              none)) := by
  rw [RingBuffer.requestData]
  simp only [hruns]
  by_cases hready : cur.filled = true ∧ cur.firstSeq = r.dstart
  · rw [if_pos hready]
    by_cases hall : cur.size ≤ size
    · rw [if_pos hall, min_eq_left hall]
      cases fetchBytes r.buffer cur cur.size with
      | none => simp [hready]
      | some bytes =>
          cases signedInt (cur.lastSeq + 1) with
          | none => simp [hready, hall]
          | some dstart => simp [hready, hall, RingBuffer.mergeList]
    · rw [if_neg hall, min_eq_right (by omega)]
      simp [hready, hall]
  · rw [if_neg hready]
    simp only [reduceCtorEq, false_iff]
    exact fun h => hready ⟨h.1, h.2.1⟩

section Results

variable {payload : ℤ → Payload} {t : Session} (hmerged : Merged t.sbuffer)

include hmerged

theorem Merged.addData_eq_none_iff (seqnum : ℤ) :
    t.call payload (.addData seqnum) = none ↔
      ¬ MergesFinish t.sbuffer (.addData seqnum) ∨
        ¬ CopiesInBuffer payload t.sbuffer (.addData seqnum) ∨
        Overflows t.sbuffer.toRing (.addData seqnum) := by
  have hlength := length_payload (payload seqnum)
  have hstores : ∀ {before placed after},
      seek t.sbuffer.dstart seqnum 1000 [] t.sbuffer.toRing.runs =
        some (.placed before placed after) →
      ((∃ buffer, storeBytes t.sbuffer.toRing.buffer placed.node
          (payload seqnum).toList = some buffer) ↔
        ∀ copy ∈ storeCopies placed.node, copy.InBuffer) := by
    intro before placed after hseek
    obtain ⟨_, _, -, -, -, -, htakes⟩ := seek_placed hseek
    exact storeBytes_iff_inBuffer _
      (htakes.node.2.2.1.trans hlength.symm) (by omega)
  rw [Session.call, Option.map_eq_none_iff,
    rel_eq_none_iff (addData_refines hmerged.represents
      hmerged.sound.bounded seqnum 1000 (payload seqnum).toList),
    hmerged.sound.addData_eq_none_iff, hmerged.mergesFinish_addData_iff,
    hmerged.copiesInBuffer_addData_iff, Overflows]
  constructor
  · rintro (hnone | ⟨before, placed, after, hseek, hstore | hmerge⟩)
    · exact .inr (.inr hnone)
    · refine .inr (.inl fun hinside => ?_)
      obtain ⟨buffer, hcopied⟩ :=
        (hstores hseek).2 (hinside before placed after hseek)
      rw [hstore] at hcopied
      cases hcopied
    · refine .inl fun hreturns => ?_
      obtain ⟨runs, hruns⟩ := hreturns before placed after hseek
      cases hmerge.symm.trans hruns
  · rintro (hmerges | hcopies | hnone)
    · push Not at hmerges
      obtain ⟨before, placed, after, hseek, hmerge⟩ := hmerges
      exact .inr ⟨before, placed, after, hseek,
        .inr (Option.eq_none_iff_forall_ne_some.2 hmerge)⟩
    · push Not at hcopies
      obtain ⟨before, placed, after, hseek, copy, hcopy, houtside⟩ := hcopies
      refine .inr ⟨before, placed, after, hseek, .inl ?_⟩
      exact Option.eq_none_iff_forall_ne_some.2 fun buffer hcopied =>
        houtside ((hstores hseek).1 ⟨buffer, hcopied⟩ copy hcopy)
    · exact .inl hnone

theorem Merged.requestData_eq_none_iff (size : ℤ) :
    t.call payload (.requestData size) = none ↔
      ¬ MergesFinish t.sbuffer (.requestData size) ∨
        ¬ CopiesInBuffer payload t.sbuffer (.requestData size) ∨
        Overflows t.sbuffer.toRing (.requestData size) := by
  obtain ⟨rest, -, hview⟩ := hmerged.ring
  have hruns : t.sbuffer.toRing.runs = t.sbuffer.extent t.sbuffer.head ::
      rest.map t.sbuffer.extent := by
    rw [hview]
    rfl
  generalize t.sbuffer.extent t.sbuffer.head = cur at hruns
  generalize rest.map t.sbuffer.extent = rest' at hruns
  have hfetches := fetchBytes_iff_inBuffer t.sbuffer.toRing.buffer cur
    (min cur.size size)
  rw [Session.call, Option.map_eq_none_iff,
    rel_eq_none_iff (requestData_refines hmerged.represents
      hmerged.sound.bounded size),
    ring_requestData_eq_none_iff hruns,
    hmerged.mergesFinish_requestData_iff,
    hmerged.copiesInBuffer_requestData_iff]
  simp only [Overflows, hruns, List.head?_cons, Option.mem_some_iff]
  constructor
  · rintro ⟨hfilled, hfirst, hfetch | ⟨hall, hnumber | ⟨dstart, hnumber, hmerge⟩⟩⟩
    · refine .inr (.inl fun hinside => ?_)
      obtain ⟨bytes, hcopied⟩ := hfetches.2 (hinside _ _ rfl hfilled hfirst)
      rw [hfetch] at hcopied
      cases hcopied
    · exact .inr (.inr ⟨cur, rfl, hfilled, hfirst, hall, hnumber⟩)
    · refine .inl fun hreturns => ?_
      obtain ⟨runs, hmerged⟩ :=
        hreturns _ _ dstart rfl hfilled hfirst hall hnumber
      rw [hmerge] at hmerged
      cases hmerged
  · rintro (hmerges | hcopies | ⟨_, rfl, hfilled, hfirst, hall, hnumber⟩)
    · push Not at hmerges
      obtain ⟨_, _, dstart, heq, hfilled, hfirst, hall, hnumber, hmerge⟩ :=
        hmerges
      cases heq
      exact ⟨hfilled, hfirst, .inr ⟨hall, .inr ⟨dstart, hnumber,
        Option.eq_none_iff_forall_ne_some.2 hmerge⟩⟩⟩
    · push Not at hcopies
      obtain ⟨_, _, heq, hfilled, hfirst, copy, hcopy, houtside⟩ := hcopies
      cases heq
      refine ⟨hfilled, hfirst, .inl ?_⟩
      exact Option.eq_none_iff_forall_ne_some.2 fun bytes hcopied =>
        houtside (hfetches.1 ⟨bytes, hcopied⟩ copy hcopy)
    · exact ⟨hfilled, hfirst, .inr ⟨hall, .inl hnumber⟩⟩

/-- A call has no result exactly when one of its merges runs on, one of its
copies leaves the buffer, or one of its numbers overflows. -/
theorem Merged.call_eq_none_iff (c : Call) :
    t.call payload c = none ↔ ¬ MergesFinish t.sbuffer c ∨
      ¬ CopiesInBuffer payload t.sbuffer c ∨
      Overflows t.sbuffer.toRing c := by
  cases c with
  | addData seqnum => exact hmerged.addData_eq_none_iff seqnum
  | requestData size => exact hmerged.requestData_eq_none_iff size

end Results

end UdpTransfer.Receiver
