import UdpTransfer.Receiver.Acceptance
import UdpTransfer.Receiver.Undefined

/-!
# The bounds of the copies

Each call copies in one piece or in two.  The copies stay inside the buffer as
long as every run starts in it.  The program keeps this except in three places:
what remains of a hole behind its first packet is not wrapped, nor is what
remains of a run behind the part that was read, and a late packet is put into a
hole whatever the size of that hole.
-/

namespace UdpTransfer.Receiver

open UdpTransfer.Memory
open UdpTransfer.Runs
open SBuffer

/-! ## Runs that start in the buffer -/

structure RunInBuffer (run : Extent) : Prop where
  data_nonneg : 0 ≤ run.data
  data_le : run.data ≤ 64000
  size_nonneg : run.filled = true → 0 ≤ run.size

def RunsInBuffer (runs : List Extent) : Prop := ∀ run ∈ runs, RunInBuffer run

theorem runsInBuffer_mergeStep {dstart : ℤ} {left right : List Extent}
    (hstep : MergeStep dstart left right) (hruns : RunsInBuffer left) :
    RunsInBuffer right := by
  apply hstep.forall_run hruns
  · intro current hcurrent next hnext hfollow
    have hcur := hruns current hcurrent
    have hbehind := hruns next hnext
    have hkinds := (followsOn_iff.1 hfollow).2
    refine ⟨hcur.data_nonneg, hcur.data_le, fun hfilled => ?_⟩
    exact add_nonneg (hcur.size_nonneg hfilled)
      (hbehind.size_nonneg (hkinds ▸ hfilled))
  · intro current hcurrent next _ hspare
    have hcur := hruns current hcurrent
    have hhole := (sparesHoles_iff.1 hspare).1
    exact ⟨hcur.data_nonneg, hcur.data_le, by simp [hhole]⟩

theorem runsInBuffer_mergeRuns {dstart : ℤ} {runs merged : List Extent}
    (hmerge : mergeRuns dstart runs = some merged) (hruns : RunsInBuffer runs) :
    RunsInBuffer merged :=
  mergeRuns_invariant (fun _ _ => runsInBuffer_mergeStep) hmerge hruns

/-- Cutting packet `seqnum` out of the hole leaves no hole behind the end of the
buffer, and puts no late packet outside it. -/
structure CutsInside (dstart : ℤ) (hole : Extent) (seqnum : ℤ) : Prop where
  beginning : hole.firstSeq = seqnum → 1000 < hole.size →
    hole.data + 1000 ≤ 64000
  middle : seqnum < dstart → hole.firstSeq < seqnum → seqnum < hole.lastSeq →
    hole.data + 1000 * (seqnum - hole.firstSeq) ≤ 128000
  ending : seqnum < dstart → hole.firstSeq < seqnum → hole.lastSeq = seqnum →
    1000 ≤ hole.data + hole.size ∧ hole.data + hole.size ≤ 129000

/-- The place of a packet lies in the buffer. -/
theorem CutsInside.place {dstart seqnum : ℤ} {hole : Extent}
    {placed : Placement} (hcuts : CutsInside dstart hole seqnum)
    (hrun : RunOk dstart hole) (hinside : RunInBuffer hole)
    (hempty : hole.filled = false)
    (hok : dstart ≤ hole.firstSeq → HoleOk dstart hole)
    (htakes : Takes hole seqnum 1000 placed) (hmax : seqnum < intMax)
    (hwindow : seqnum ≤ dstart + 63) :
    0 ≤ placed.node.data ∧ placed.node.data ≤ 64000 := by
  rcases lt_or_ge hole.firstSeq dstart with hstale | hlive
  · have hside := hrun.side
    have hordered := hrun.ordered
    have hbounds := htakes.bounds hrun
    cases htakes with
    | beginning hfirst hsize _ => exact ⟨hinside.data_nonneg, hinside.data_le⟩
    | whole hfirst hsize => exact ⟨hinside.data_nonneg, hinside.data_le⟩
    | middle hfirst hlast =>
        have hlow := hinside.data_nonneg
        have hhigh := hcuts.middle (by omega) hfirst hlast
        apply wrap_bounds
        · simp only [holeBefore]
          omega
        · simp only [holeBefore]
          omega
    | ending hfirst hlast =>
        have hend := hcuts.ending (by omega) hfirst hlast
        apply wrap_bounds
        · omega
        · omega
  · exact (hok hlive).place hrun hempty hlive htakes hmax hwindow
      fun _ => hinside.data_le

theorem runsInBuffer_place {dstart seqnum : ℤ} {before after : List Extent}
    {hole : Extent} {placed : Placement}
    (hruns : RunsInBuffer (before ++ hole :: after))
    (hempty : hole.filled = false) (hcuts : CutsInside dstart hole seqnum)
    (htakes : Takes hole seqnum 1000 placed)
    (hplace : 0 ≤ placed.node.data ∧ placed.node.data ≤ 64000) :
    RunsInBuffer (refill before placed after) := by
  have hhole := hruns hole (by simp)
  have hlow := hhole.data_nonneg
  have hhigh := hhole.data_le
  intro run hrun
  simp only [refill, List.mem_append, List.mem_cons] at hrun
  rcases hrun with (hrun | hrun) | rfl | hrun | hrun
  · exact hruns run (by simp [hrun])
  · cases htakes with
    | beginning hfirst hsize _ => cases hrun
    | whole hfirst hsize => cases hrun
    | middle hfirst hlast =>
        rw [List.mem_singleton] at hrun
        subst hrun
        exact ⟨hlow, hhigh, by simp [holeBefore, hempty]⟩
    | ending hfirst hlast =>
        rw [List.mem_singleton] at hrun
        subst hrun
        exact ⟨hlow, hhigh, by simp [hempty]⟩
  · refine ⟨hplace.1, hplace.2, fun _ => ?_⟩
    rw [htakes.node.2.2.1]
    decide
  · cases htakes with
    | beginning hfirst hsize _ =>
        rw [List.mem_singleton] at hrun
        subst hrun
        exact ⟨by simp only; omega, hcuts.beginning hfirst hsize, by simp⟩
    | whole hfirst hsize => cases hrun
    | middle hfirst hlast =>
        rw [List.mem_singleton] at hrun
        subst hrun
        simp only at hplace
        have hdata := wrap_bounds
          (show 0 ≤ (packetInside hole seqnum 1000).data + 1000 by omega)
          (by omega)
        exact ⟨hdata.1, hdata.2, by simp [holeBehind]⟩
    | ending hfirst hlast => cases hrun
  · exact hruns run (by simp [hrun])

/-! ## Sessions -/

/-- The condition on a call.  A request reads a part of a run only where the
run does not go round the end of the buffer, or up to that end. -/
def staysInside : Session → Call → Prop
  | t, .addData seqnum =>
      OffSentinel t.sbuffer.dstart seqnum ∧ ∀ before hole after,
        t.sbuffer.toRing.runs = before ++ hole :: after →
        (∀ other ∈ before, ¬ Stops other seqnum) → Fits hole seqnum →
        seqnum ≤ t.sbuffer.dstart + 63 →
        CutsInside t.sbuffer.dstart hole seqnum
  | t, .requestData size =>
      0 ≤ size ∧ ∀ cur rest, t.sbuffer.toRing.runs = cur :: rest →
        cur.filled = true → cur.firstSeq = t.sbuffer.dstart →
        size < cur.size →
        cur.data + cur.size ≤ 64000 ∨ cur.data + size = 64000

theorem noSentinel_of_staysInside (t : Session) (c : Call)
    (hguard : staysInside t c) : noSentinel t c := by
  cases c with
  | addData seqnum => exact hguard.1
  | requestData size => trivial

variable {payload : ℤ → Payload} {t : Session}

/-- Where a guarded `addData` puts its packet. -/
theorem place_of_staysInside
    (hreach : ((receiver payload).restrict noSentinel).Reachable t)
    (hruns : RunsInBuffer t.sbuffer.toRing.runs) {seqnum : ℤ}
    (hguard : staysInside t (.addData seqnum)) {before after : List Extent}
    {placed : Placement}
    (hseek : seek t.sbuffer.toRing.dstart seqnum 1000 []
      t.sbuffer.toRing.runs = some (.placed before placed after)) :
    (0 ≤ placed.node.data ∧ placed.node.data ≤ 64000) ∧
      placed.node.size = 1000 ∧ RunsInBuffer (refill before placed after) := by
  have hlayout := layout_reachable hreach
  obtain ⟨hole, hring, hbefore, hfits, hfill, -, hwindow⟩ :=
    (seek_eq_placed_iff hlayout.one_le).1 hseek
  have hhole : hole ∈ t.sbuffer.toRing.runs := by simp [hring]
  have hrun := hlayout.run_ok hole hhole
  have htakes := takes_of_fillRun hfits.1 hfill (filled_of_fits hfits hfill)
  have hcuts := hguard.2 before hole after hring hbefore hfits hwindow
  have hmax := hguard.1.lt_intMax hrun htakes hwindow
  have hplace := hcuts.place hrun (hruns hole hhole) hfits.1
    (holesOk_reachable hreach hole hhole hfits.1) htakes hmax hwindow
  rw [hring] at hruns
  exact ⟨hplace, htakes.node.2.2.1,
    runsInBuffer_place hruns hfits.1 hcuts htakes hplace⟩

theorem runsInBuffer_reachable
    (hreach : ((receiver payload).restrict staysInside).Reachable t) :
    RunsInBuffer t.sbuffer.toRing.runs := by
  refine ring_invariant (I := fun r => RunsInBuffer r.runs) ?_ ?_ ?_ hreach
  · intro run hrun
    simp only [RingBuffer.initHead, List.mem_singleton] at hrun
    subst hrun
    exact ⟨by decide, by decide, by decide⟩
  · intro t seqnum result r' hguard hreach hruns hadd
    have hmerged := merged_reachable hreach.of_restrict
    have hlayout := hreach.restrict_mono noSentinel_of_staysInside
    rw [hmerged.sound.addData_eq, Option.bind_eq_some_iff] at hadd
    obtain ⟨answer, hseek, hadd⟩ := hadd
    cases answer with
    | duplicate =>
        cases hadd
        exact hruns
    | rejected =>
        cases hadd
        exact hruns
    | placed before placed after =>
        obtain ⟨buffer, runs, -, hmerge, -, rfl⟩ := settle_eq_some_iff.1 hadd
        exact runsInBuffer_mergeRuns hmerge
          (place_of_staysInside hlayout hruns hguard hseek).2.2
  · intro t size count bytes r' hguard hreach hruns hrequest
    cases delivery_of_requestData hrequest with
    | nothing => exact hruns
    | whole cur rest runs hring hfilled hfirst _ hmerge =>
        refine runsInBuffer_mergeRuns hmerge ?_
        rw [hring] at hruns
        have hcur := hruns cur (by simp)
        intro run hrun
        rw [List.mem_append, List.mem_singleton] at hrun
        rcases hrun with hrun | rfl
        · exact hruns run (by simp [hrun])
        · exact ⟨hcur.data_nonneg, hcur.data_le, by simp⟩
    | part cur rest hring hfilled hfirst hnonneg hpart =>
        have hend := hguard.2 cur rest hring hfilled hfirst hpart
        rw [hring] at hruns
        have hcur := hruns cur (by simp)
        have hlow := hcur.data_nonneg
        intro run hrun
        rcases List.mem_cons.1 hrun with rfl | hrun
        · exact ⟨by simp only; omega, by simp only; omega,
            fun _ => by simp only; omega⟩
        · exact hruns run (by simp [hrun])

theorem inBuffer_storeCopies {place : Extent}
    (hplace : 0 ≤ place.data ∧ place.data ≤ 64000) (hsize : place.size = 1000) :
    ∀ copy ∈ storeCopies place, copy.InBuffer := by
  rw [storeCopies]
  split
  · simp only [List.forall_mem_cons, Copy.InBuffer, List.not_mem_nil,
      false_imp_iff, implies_true, and_true]
    omega
  · simp only [List.mem_singleton, forall_eq, Copy.InBuffer]
    omega

/-- The copies for `count` bytes of a run that starts in the buffer. -/
theorem inBuffer_fetchCopies {run : Extent} {count : ℤ}
    (hinside : RunInBuffer run) (hnonneg : 0 ≤ count) (hle : count ≤ run.size)
    (hsize : run.size ≤ 64000)
    (hpart : count < run.size →
      run.data + run.size ≤ 64000 ∨ run.data + count = 64000) :
    ∀ copy ∈ fetchCopies run count, copy.InBuffer := by
  have hlow := hinside.data_nonneg
  have hhigh := hinside.data_le
  rw [fetchCopies]
  split
  · simp only [List.forall_mem_cons, Copy.InBuffer, List.not_mem_nil,
      false_imp_iff, implies_true, and_true]
    omega
  · simp only [List.mem_singleton, forall_eq, Copy.InBuffer]
    omega

/-- In every session whose calls meet the condition, the copies of each call
that meets it stay inside the buffer and within the request. -/
theorem copies_inBuffer (payload : ℤ → Payload) (t : Session)
    (hreach : ((receiver payload).restrict staysInside).Reachable t) (c : Call)
    (hcall : staysInside t c) : CopiesInBuffer payload t.sbuffer c := by
  have hruns := runsInBuffer_reachable hreach
  have hreach' := hreach.restrict_mono noSentinel_of_staysInside
  have hlayout := layout_reachable hreach'
  have hmerged := merged_reachable hreach'.of_restrict
  cases c with
  | addData seqnum =>
      rw [hmerged.copiesInBuffer_addData_iff]
      intro before placed after hseek
      obtain ⟨hplace, hsize, -⟩ :=
        place_of_staysInside hreach' hruns hcall hseek
      exact inBuffer_storeCopies hplace hsize
  | requestData size =>
      rw [hmerged.copiesInBuffer_requestData_iff]
      intro cur rest hring hfilled hfirst
      have hcur := hlayout.run_ok cur (by simp [hring])
      have hinside := hruns cur (by simp [hring])
      have hwindow := hcur.window hfilled hfirst.ge
      have hstored := hcur.stored hfilled
      have hroom := hcur.room
      have hfirst' : cur.firstSeq = t.sbuffer.toRing.dstart := hfirst
      refine inBuffer_fetchCopies hinside
        (le_min (hinside.size_nonneg hfilled) hcall.1) (min_le_left _ _)
        (by omega) fun hpart => ?_
      have hsize : size < cur.size := by omega
      rw [min_eq_right hsize.le]
      exact hcall.2 cur rest hring hfilled hfirst hsize

/-- A packet meets the condition where every hole does. -/
theorem staysInside_addData {t : Session} {seqnum : ℤ}
    (hoff : OffSentinel t.sbuffer.dstart seqnum)
    (hcuts : ∀ run ∈ t.sbuffer.toRing.runs, run.filled = false →
      CutsInside t.sbuffer.dstart run seqnum) :
    staysInside t (.addData seqnum) :=
  ⟨hoff, fun _ hole _ hruns _ hfits _ =>
    hcuts hole (by simp [hruns]) hfits.1⟩

/-- Packet 1 has arrived and been delivered.  Packet 2 is copied behind the
recycled hole, and 25 of its bytes are handed out. -/
theorem copies_inBuffer_recycled :
    (∃ t, ((receiver numbered).restrict staysInside).Reachable t ∧
      (∃ s' current, PlacedAt t.sbuffer 2 s' current) ∧
      CopiesInBuffer numbered t.sbuffer (.addData 2)) ∧
    ∃ t, ((receiver numbered).restrict staysInside).Reachable t ∧
      t.sbuffer.Ready ∧
      CopiesInBuffer numbered t.sbuffer (.requestData 25) := by
  have hfirst : ∀ t : Session, t.sbuffer.toRing = RingBuffer.initHead →
      staysInside t (.addData 1) := by
    intro t ht
    have hdstart : t.sbuffer.dstart = 1 := congrArg RingBuffer.dstart ht
    refine staysInside_addData (offSentinel_of_lt (by decide)) ?_
    rw [ht, hdstart]
    intro run hrun _
    rw [RingBuffer.initHead, List.mem_singleton] at hrun
    subst hrun
    exact ⟨by decide, by decide, by decide⟩
  have hsecond : ∀ t : Session, t.sbuffer.dstart = 2 →
      t.sbuffer.toRing.runs =
        [⟨2, 64, 1000, 63000, false⟩, ⟨1, 1, 0, 1000, false⟩] →
      staysInside t (.addData 2) := by
    intro t hdstart ht
    refine staysInside_addData (offSentinel_of_lt (by decide)) ?_
    rw [ht, hdstart]
    intro run hrun _
    simp only [List.mem_cons, List.not_mem_nil, or_false] at hrun
    rcases hrun with rfl | rfl <;> exact ⟨by decide, by decide, by decide⟩
  have hrequest : ∀ (t : Session) (cur : Extent) (rest : List Extent)
      (size : ℤ), t.sbuffer.toRing.runs = cur :: rest → 0 ≤ size →
      cur.data + cur.size ≤ 64000 → staysInside t (.requestData size) := by
    intro t cur rest size hruns hsize hend
    refine ⟨hsize, fun cur' rest' hruns' _ _ _ => .inl ?_⟩
    rw [hruns] at hruns'
    cases hruns'
    exact hend
  obtain ⟨buffer, dend, out, hrecycled⟩ := reaches_recycled numbered
    staysInside hfirst fun t ht => hrequest t _ _ 1000 ht (by decide) (by decide)
  obtain ⟨_, _, -, hstored⟩ := hrecycled.store 2
    (fun t ht => hsecond t (congrArg RingBuffer.dstart ht)
      (congrArg RingBuffer.runs ht)) rfl (by decide) rfl
  constructor
  · obtain ⟨t, hreach, hring, -, -⟩ := hrecycled
    have hdstart : t.sbuffer.dstart = 2 := congrArg RingBuffer.dstart hring
    have hmerged := merged_reachable hreach.of_restrict
    refine ⟨t, hreach, ?_, copies_inBuffer numbered t hreach (.addData 2)
      (hsecond t hdstart (congrArg RingBuffer.runs hring))⟩
    obtain ⟨s', current, hplaced, -⟩ := hmerged.exists_placed
      (show seek t.sbuffer.dstart 2 1000 [] t.sbuffer.toRing.runs = some _ by
        rw [hring, hdstart]
        rfl)
    exact ⟨s', current, hplaced⟩
  · obtain ⟨t, hreach, hring, -, -⟩ := hstored
    have hruns : t.sbuffer.toRing.runs = [⟨2, 2, 1000, 1000, true⟩,
        ⟨3, intMax, 2000, 63000, false⟩] := congrArg RingBuffer.runs hring
    have hdstart : t.sbuffer.dstart = 2 := congrArg RingBuffer.dstart hring
    refine ⟨t, hreach, (merged_reachable hreach.of_restrict).ready_iff.2 ?_,
      copies_inBuffer numbered t hreach (.requestData 25)
        (hrequest t _ _ 25 hruns (by decide) (by decide))⟩
    rw [hruns, hdstart]
    exact ⟨_, rfl, rfl, rfl⟩

/-- Requests ask for a number of bytes. -/
def sized : Session → Call → Prop
  | _, .addData _ => True
  | _, .requestData size => 0 ≤ size

/-- Packets 1 and 2 arrive and are delivered one by one, 3 is late, and 64, 65
and 66 arrive.  Packet 65 leaves a hole at offset 65000. -/
theorem not_copies_inBuffer :
    ¬ ∀ (payload : ℤ → Payload) (t : Session),
      ((receiver payload).restrict sized).Reachable t → ∀ c, sized t c →
        CopiesInBuffer payload t.sbuffer c := by
  intro hclaim
  have h : Reaches numbered sized RingBuffer.initHead [] [] := reaches_start
  obtain ⟨_, _, -, h⟩ := h.store 1 (fun _ _ => trivial) rfl (by decide) rfl
  have h := h.deliver 1000 (fun _ _ => (by decide : (0 : ℤ) ≤ 1000)) rfl rfl
    rfl (by decide) (by decide) (by decide) rfl
  obtain ⟨_, _, -, h⟩ := h.store 2 (fun _ _ => trivial) rfl (by decide) rfl
  have h := h.deliver 1000 (fun _ _ => (by decide : (0 : ℤ) ≤ 1000)) rfl rfl
    rfl (by decide) (by decide) (by decide) rfl
  obtain ⟨_, _, -, h⟩ := h.store 64 (fun _ _ => trivial) rfl (by decide) rfl
  obtain ⟨_, _, -, h⟩ := h.store 65 (fun _ _ => trivial) rfl (by decide) rfl
  obtain ⟨t, hreach, hring, -, -⟩ := h
  have hdstart : t.sbuffer.dstart = 3 := congrArg RingBuffer.dstart hring
  have hcopies := hclaim numbered t hreach (.addData 66) trivial
  rw [(merged_reachable hreach.of_restrict).copiesInBuffer_addData_iff, hring,
    hdstart] at hcopies
  have hfirst := hcopies _ _ _ rfl ⟨65000, -1000⟩ List.mem_cons_self
  exact absurd hfirst.1 (by decide)

end UdpTransfer.Receiver
