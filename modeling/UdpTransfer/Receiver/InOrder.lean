import UdpTransfer.Receiver.Acceptance
import UdpTransfer.Receiver.Coverage
import UdpTransfer.Receiver.Stream
import UdpTransfer.Receiver.Undefined

/-!
# Packets in order

A packet that fills the beginning of a hole is put where the hole begins, and
what is left of the hole begins behind it, even behind the end of the buffer:
only a packet that leaves a gap brings the place back to the front.  Where
every packet arrives in its turn, the one with number 65 still comes to lie in
the buffer, and the next one is never stored.
-/

namespace UdpTransfer.Receiver

open UdpTransfer.Memory
open UdpTransfer.Runs
open SBuffer

/-- The number of the first packet that has not been received. -/
def missing (r : RingBuffer) : ℤ :=
  match r.runs with
  | [] => r.dstart
  | cur :: _ =>
      if cur.filled = true ∧ cur.firstSeq = r.dstart then cur.lastSeq + 1
      else r.dstart

/-- No packet arrives before all those in front of it have.  Any of these may
arrive again, as long as it is harmless. -/
def inOrder (payload : ℤ → Payload) (t : Session) : Call → Prop
  | .addData seqnum => ArrivesSafely payload t.sbuffer.toRing seqnum ∧
      seqnum ≤ missing t.sbuffer.toRing
  | .requestData _ => True

/-- Packets up to `k` have arrived and no others, and the next will be put
behind them without turning back. -/
structure Lined (k dstart : ℤ) (runs : List Extent) : Prop where
  dstart_le : dstart ≤ k + 1
  filled : ∀ run ∈ runs, dstart ≤ run.firstSeq → run.filled = true →
    run.lastSeq ≤ k ∧ 0 ≤ run.size
  hole : ∀ run ∈ runs, dstart ≤ run.firstSeq → run.filled = false →
    run.firstSeq = k + 1 ∧ run.data = 1000 * k

variable {k dstart : ℤ}

theorem lined_initHead :
    Lined 0 RingBuffer.initHead.dstart RingBuffer.initHead.runs := by
  refine ⟨by decide, ?_, ?_⟩
  · intro run hrun _ hfilled
    simp only [RingBuffer.initHead, List.mem_singleton] at hrun
    rw [hrun] at hfilled
    cases hfilled
  · intro run hrun _ _
    simp only [RingBuffer.initHead, List.mem_singleton] at hrun
    rw [hrun]
    exact ⟨rfl, rfl⟩

theorem Lined.mergeStep {left right : List Extent}
    (hstep : MergeStep dstart left right) (hlayout : Layout dstart left)
    (hlined : Lined k dstart left) : Lined k dstart right := by
  refine ⟨hlined.dstart_le, ?_, ?_⟩
  · apply hstep.forall_run hlined.filled
    · intro current hcurrent next hnext hfollow hlive hfilled
      obtain ⟨hlast, hkinds⟩ := followsOn_iff.1 hfollow
      have hordered := (hlayout.run_ok current hcurrent).ordered
      have hcur := hlined.filled current hcurrent hlive hfilled
      have hbehind := hlined.filled next hnext
        (by simp only [mergeFollowing_firstSeq] at hlive; omega)
        (hkinds ▸ hfilled)
      simp only [mergeFollowing]
      omega
    · intro current _ next _ hspare _ hfilled
      rw [mergeSpare_filled, (sparesHoles_iff.1 hspare).1] at hfilled
      cases hfilled
  · apply hstep.forall_run hlined.hole
    · intro current hcurrent _ _ _ hlive hhole
      exact hlined.hole current hcurrent hlive hhole
    · intro current hcurrent _ _ _ hlive hhole
      exact hlined.hole current hcurrent hlive hhole

theorem Lined.mergeRuns {runs merged : List Extent}
    (hlined : Lined k dstart runs) (hlayout : Layout dstart runs)
    (hmerge : mergeRuns dstart runs = some merged) : Lined k dstart merged := by
  have hboth := mergeRuns_invariant
    (I := fun runs => Layout dstart runs ∧ Lined k dstart runs)
    (fun _ _ hstep h => ⟨h.1.mergeStep hstep, h.2.mergeStep hstep h.1⟩)
    hmerge ⟨hlayout, hlined⟩
  exact hboth.2

theorem Lined.missing_le {r : RingBuffer} (hlined : Lined k r.dstart r.runs) :
    missing r ≤ k + 1 := by
  have hdstart := hlined.dstart_le
  rw [missing]
  cases hruns : r.runs with
  | nil => exact hdstart
  | cons cur rest =>
      simp only
      split
      · rename_i hready
        have hcur := hlined.filled cur (by simp [hruns]) hready.2.ge hready.1
        omega
      · exact hdstart

/-! ## Arrivals -/

/-- A packet that finds a place is the next one. -/
theorem Lined.next {before after : List Extent} {cur : Extent} {seqnum : ℤ}
    {placed : Placement} (hlined : Lined k dstart (before ++ cur :: after))
    (hlayout : Layout dstart (before ++ cur :: after))
    (hhole : cur.filled = false) (htakes : Takes cur seqnum 1000 placed)
    (hlow : dstart ≤ seqnum) (hhigh : seqnum ≤ k + 1) :
    dstart ≤ cur.firstSeq ∧ cur.firstSeq = seqnum ∧ seqnum = k + 1 ∧
      cur.data = 1000 * k := by
  have hcur := hlayout.run_ok cur (by simp)
  have hside := hcur.side
  have hbounds := htakes.bounds hcur
  have hlive : dstart ≤ cur.firstSeq := by omega
  have hnext := hlined.hole cur (by simp) hlive hhole
  exact ⟨hlive, by omega, by omega, hnext.2⟩

theorem Lined.place {before after : List Extent} {cur : Extent} {seqnum : ℤ}
    {placed : Placement} (hlined : Lined k dstart (before ++ cur :: after))
    (hlayout : Layout dstart (before ++ cur :: after))
    (hhole : cur.filled = false) (htakes : Takes cur seqnum 1000 placed)
    (hlow : dstart ≤ seqnum) (hhigh : seqnum ≤ k + 1) :
    placed.node.data = 1000 * k ∧
      Lined (k + 1) dstart (refill before placed after) := by
  obtain ⟨hlive, hfirst, hseqnum, hdata⟩ :=
    hlined.next hlayout hhole htakes hlow hhigh
  have hdstart := hlined.dstart_le
  have hnode := htakes.node
  have hplace : placed.node.data = 1000 * k := by
    cases htakes with
    | beginning _ _ _ => exact hdata
    | whole _ _ => exact hdata
    | middle hlt _ => omega
    | ending hlt _ => omega
  refine ⟨hplace, by omega, ?_, ?_⟩
  · intro run hrun hrunLive hfilled
    rcases (mem_refill hhole htakes hfilled).1 hrun with hold | rfl
    · have hrun := hlined.filled run hold hrunLive hfilled
      omega
    · omega
  · intro run hrun hrunLive hrunHole
    have hother : run ∉ before ++ after := by
      intro hmem
      have hrun := hlined.hole run (by
        rw [List.mem_append] at hmem
        rw [List.mem_append, List.mem_cons]
        tauto) hrunLive hrunHole
      have hapart := hlayout.disjoint hlive hmem
      have h1 := (hlayout.run_ok cur (by simp)).ordered
      have h2 := (hlayout.run_ok run (by
        rw [List.mem_append] at hmem
        rw [List.mem_append, List.mem_cons]
        tauto)).ordered
      omega
    rw [List.mem_append, not_or] at hother
    simp only [refill, List.mem_append, List.mem_cons] at hrun
    rcases hrun with (hrun | hrun) | rfl | hrun | hrun
    · exact absurd hrun hother.1
    · cases htakes with
      | beginning _ _ _ => cases hrun
      | whole _ _ => cases hrun
      | middle hlt _ => omega
      | ending hlt _ => omega
    · rw [hnode.2.2.2] at hrunHole
      cases hrunHole
    · cases htakes with
      | beginning _ _ _ =>
          rw [List.mem_singleton] at hrun
          subst hrun
          simp only
          omega
      | whole _ _ => cases hrun
      | middle hlt _ => omega
      | ending _ _ => cases hrun
    · exact absurd hrun hother.2

/-- A late packet goes where nothing is waited for any more. -/
theorem Lined.place_late {before after : List Extent} {cur : Extent}
    {seqnum : ℤ} {placed : Placement}
    (hlined : Lined k dstart (before ++ cur :: after))
    (hlayout : Layout dstart (before ++ cur :: after))
    (hlayout' : Layout dstart (refill before placed after))
    (htakes : Takes cur seqnum 1000 placed) (hlate : seqnum < dstart) :
    Lined k dstart (refill before placed after) := by
  have hcur := hlayout.run_ok cur (by simp)
  have hside := hcur.side
  have hbounds := htakes.bounds hcur
  have hold : ∀ run ∈ refill before placed after, dstart ≤ run.firstSeq →
      run ∈ before ++ cur :: after := by
    refine forall_mem_refill.2 ⟨?_, ?_, ?_⟩
    · exact fun run hrun _ => List.mem_append_left _ hrun
    · intro run hrun hlive
      have hle := htakes.lastSeq_le hbounds.2 run hrun
      have hordered := (hlayout'.run_ok run (by
        simp only [List.mem_append, List.mem_cons] at hrun
        simp only [refill, List.mem_append, List.mem_cons]
        tauto)).ordered
      omega
    · exact fun run hrun _ =>
        List.mem_append_right _ (List.mem_cons_of_mem _ hrun)
  exact ⟨hlined.dstart_le,
    fun run hrun hlive => hlined.filled run (hold run hrun hlive) hlive,
    fun run hrun hlive => hlined.hole run (hold run hrun hlive) hlive⟩

/-- A packet is stored only where it begins inside the buffer. -/
theorem Lined.addData {r r' : RingBuffer} {seqnum result : ℤ}
    {data : List UInt8} (hlined : Lined k r.dstart r.runs) (hk : k ≤ 65)
    (hsound : Sound r) (hlayout : Layout r.dstart r.runs)
    (hlength : (data.length : ℤ) = 1000) (hhigh : seqnum ≤ missing r)
    (hadd : r.addData seqnum 1000 data = some (result, r')) :
    ∃ k' ≤ 65, Lined k' r'.dstart r'.runs := by
  rw [hsound.addData_eq, Option.bind_eq_some_iff] at hadd
  obtain ⟨answer, hseek, hadd⟩ := hadd
  cases answer with
  | duplicate =>
      cases hadd
      exact ⟨k, hk, hlined⟩
  | rejected =>
      cases hadd
      exact ⟨k, hk, hlined⟩
  | placed before placed after =>
      obtain ⟨buffer, runs, hstore, hmerge, -, rfl⟩ := settle_eq_some_iff.1 hadd
      obtain ⟨mid, cur, hfound, hruns, hhole, hwindow, htakes⟩ :=
        seek_placed hseek
      rw [List.nil_append] at hfound
      subst hfound
      have hinside := (storeBytes_eq_some_iff r.buffer
        (htakes.node.2.2.1.trans hlength.symm) (by omega)).1 ⟨buffer, hstore⟩
      have hhigh' := hhigh.trans hlined.missing_le
      have hmax : seqnum < intMax := by
        rw [intMax]
        omega
      rw [hruns] at hlined hlayout
      have hlayout' := hlayout.place hhole htakes hmax hwindow
      rcases lt_or_ge seqnum r.dstart with hlate | hlow
      · exact ⟨k, hk,
          (hlined.place_late hlayout hlayout' htakes hlate).mergeRuns hlayout'
            hmerge⟩
      · obtain ⟨hplace, hplaced⟩ :=
          hlined.place hlayout hhole htakes hlow hhigh'
        exact ⟨k + 1, by omega, hplaced.mergeRuns hlayout' hmerge⟩

/-! ## Requests -/

theorem Lined.delivery {r r' : RingBuffer} {size : ℤ} {bytes : List UInt8}
    (hlined : Lined k r.dstart r.runs) (hlayout : Layout r.dstart r.runs)
    (hdelivery : Delivery r size bytes r') : Lined k r'.dstart r'.runs := by
  cases hdelivery with
  | nothing => exact hlined
  | whole cur rest runs hruns hfilled hfirst _ hmerge =>
      rw [hruns] at hlined hlayout
      have hcur := hlined.filled cur (by simp) hfirst.ge hfilled
      have hordered := (hlayout.run_ok cur (by simp)).ordered
      have hstart : r.dstart ≤ cur.lastSeq + 1 := by omega
      refine Lined.mergeRuns ⟨by simp only; omega, ?_, ?_⟩
        (hlayout.deliver hfilled hfirst) hmerge
      · intro run hrun hlive hrunFilled
        rw [List.mem_append, List.mem_singleton] at hrun
        rcases hrun with hrun | rfl
        · exact hlined.filled run (by simp [hrun]) (hstart.trans hlive)
            hrunFilled
        · cases hrunFilled
      · intro run hrun hlive hrunHole
        rw [List.mem_append, List.mem_singleton] at hrun
        rcases hrun with hrun | rfl
        · exact hlined.hole run (by simp [hrun]) (hstart.trans hlive) hrunHole
        · simp only at hlive
          omega
  | part cur rest hruns hfilled hfirst _ hlt =>
      rw [hruns] at hlined
      have hcur := hlined.filled cur (by simp) hfirst.ge hfilled
      refine ⟨hlined.dstart_le, ?_, ?_⟩
      · intro run hrun hlive hrunFilled
        rcases List.mem_cons.1 hrun with rfl | hrun
        · simp only
          omega
        · exact hlined.filled run (by simp [hrun]) hlive hrunFilled
      · intro run hrun hlive hrunHole
        rcases List.mem_cons.1 hrun with rfl | hrun
        · rw [hfilled] at hrunHole
          cases hrunHole
        · exact hlined.hole run (by simp [hrun]) hlive hrunHole

/-- What has been handed out is of packets up to `k`. -/
theorem Lined.handedOut_le {runs : List Extent} (hlined : Lined k dstart runs) :
    handedOut dstart runs ≤ 1000 * k := by
  have hdstart := hlined.dstart_le
  cases runs with
  | nil =>
      rw [handedOut]
      omega
  | cons cur rest =>
      rw [handedOut]
      split
      · rename_i hready
        have hcur := hlined.filled cur (by simp) hready.2.ge hready.1
        omega
      · omega

/-- What has been received is of packets up to `k`. -/
theorem Lined.covered_le {r : RingBuffer} {seqnum : ℤ}
    (hlined : Lined k r.dstart r.runs) (hlayout : Layout r.dstart r.runs)
    (hcovered : Covered r seqnum) : seqnum ≤ k := by
  have hdstart := hlined.dstart_le
  rcases hcovered with hlate | ⟨run, hrun, hfilled, hlow, hhigh⟩
  · omega
  · rcases (hlayout.run_ok run hrun).side with hstale | hlive
    · omega
    · exact hhigh.trans (hlined.filled run hrun hlive hfilled).1

/-! ## Every run -/

theorem lined_reachable {payload : ℤ → Payload} {t : Session}
    (hreach : ((receiver payload).restrict (inOrder payload)).Reachable t) :
    Faithful payload t.sbuffer.toRing t.out ∧
      ∃ k ≤ 65, Lined k t.sbuffer.toRing.dstart t.sbuffer.toRing.runs := by
  refine hreach.invariant_with (J := fun t => Merged t.sbuffer)
    (I := fun t => Faithful payload t.sbuffer.toRing t.out ∧
      ∃ k ≤ 65, Lined k t.sbuffer.toRing.dstart t.sbuffer.toRing.runs)
    (fun _ hreach => merged_reachable hreach.of_restrict) ?_ ?_
  · rintro t rfl
    rw [show Session.start.sbuffer = initHead from rfl,
      initHead_represents.toRing_eq]
    exact ⟨faithful_initHead, 0, by decide, lined_initHead⟩
  · rintro t c t' hmerged ⟨hfaithful, k, hk, hlined⟩ ⟨hguard, hcall⟩
    have hlayout := hfaithful.holding.layout
    cases c with
    | addData seqnum =>
        have hlength := length_payload (payload seqnum)
        obtain ⟨⟨result, s⟩, hadd, rfl⟩ := Option.map_eq_some_iff.1 hcall
        have hadd := hmerged.toRing_addData hadd
        have hadd' := hadd
        rw [← hlength] at hadd'
        have harrival := hmerged.sound.arrival (by omega) hadd'
        exact ⟨hfaithful.arrival hguard.1 harrival,
          hlined.addData hk hmerged.sound hlayout hlength hguard.2 hadd⟩
    | requestData size =>
        obtain ⟨⟨count, bytes, s⟩, hrequest, rfl⟩ :=
          Option.map_eq_some_iff.1 hcall
        obtain ⟨hdelivery, -⟩ := hmerged.requestData hrequest
        exact ⟨hfaithful.delivery hdelivery, k, hk,
          hlined.delivery hlayout hdelivery⟩

/-- The packet behind the 65th is turned away, or its place is at offset 65000
and the length of the first copy negative. -/
theorem Lined.refuses {s : SBuffer} {seqnum : ℤ}
    (hlined : Lined k s.toRing.dstart s.toRing.runs) (hk : k ≤ 65)
    (hmerged : Merged s) (hlayout : Layout s.toRing.dstart s.toRing.runs)
    (hbeyond : 65 < seqnum) (hnext : seqnum ≤ missing s.toRing)
    (data : List UInt8) :
    s.addData seqnum 1000 data = some (0, s) ∨
      ∀ payload, ¬ CopiesInBuffer payload s (.addData seqnum) := by
  have hmissing := hlined.missing_le
  have hdstart := hlined.dstart_le
  have hone := hlayout.one_le
  have hlimit : signedInt (s.toRing.dstart + 63) =
      some (s.toRing.dstart + 63) := if_pos (by omega)
  obtain ⟨answer, hseek⟩ := exists_seek hlimit (show 0 ≤ seqnum by omega)
    (show seqnum < intMax by rw [intMax]; omega) s.toRing.runs []
  cases answer with
  | duplicate =>
      obtain ⟨run, hrun, hfirst, hfilled⟩ := seek_duplicate hseek
      have hordered := (hlayout.run_ok run hrun).ordered
      have hstored := hlined.filled run hrun (by omega) hfilled
      omega
  | rejected => exact .inl (hmerged.addData_rejected hseek)
  | placed before placed after =>
      right
      intro payload hcopies
      obtain ⟨mid, cur, hfound, hruns, hhole, -, htakes⟩ := seek_placed hseek
      rw [List.nil_append] at hfound
      subst hfound
      have hinside := hmerged.copiesInBuffer_addData_iff payload |>.1 hcopies
        before placed after hseek
      rw [hruns] at hlined hlayout
      have hplaced := (hlined.place hlayout hhole htakes (by omega)
        (by omega)).1
      have hsize := htakes.node.2.2.1
      rw [storeCopies, if_pos (by omega)] at hinside
      have hlength := (hinside _ List.mem_cons_self).1
      simp only at hlength
      omega

/-- Where packets arrive in order, no packet behind the 65th is ever handed out
or acknowledged: it is turned away, or copied outside the buffer. -/
theorem inOrder_bounded (payload : ℤ → Payload) (t : Session)
    (hreach : ((receiver payload).restrict (inOrder payload)).Reachable t) :
    t.out.length ≤ 65000 ∧ (∀ seqnum ∈ t.acked, seqnum ≤ 65) ∧
      ∀ seqnum, 65 < seqnum → inOrder payload t (.addData seqnum) →
        t.sbuffer.addData seqnum 1000 (payload seqnum).toList =
            some (0, t.sbuffer) ∨
          ¬ CopiesInBuffer payload t.sbuffer (.addData seqnum) := by
  obtain ⟨hfaithful, k, hk, hlined⟩ := lined_reachable hreach
  refine ⟨?_, ?_, fun seqnum hbeyond hguard =>
    (hlined.refuses hk (merged_reachable hreach.of_restrict)
      hfaithful.holding.layout hbeyond hguard.2 _).imp_right fun h => h payload⟩
  · have hposition := hlined.handedOut_le
    rw [hfaithful.holding.handed] at hposition
    omega
  · intro seqnum hacked
    have hcovered := acked_covered hreach seqnum hacked
    exact (hlined.covered_le hfaithful.holding.layout hcovered).trans hk

/-- The next packet is in order. -/
theorem inOrder_next {payload : ℤ → Payload} {t : Session} {seqnum : ℤ}
    (hmax : seqnum < intMax) (hlow : t.sbuffer.toRing.dstart ≤ seqnum)
    (hnext : missing t.sbuffer.toRing = seqnum) :
    inOrder payload t (.addData seqnum) :=
  ⟨⟨offSentinel_of_lt hmax, fun hlate => absurd hlate hlow.not_gt⟩, hnext.ge⟩

/-- Packets up to `k` have arrived and been handed out one by one. -/
def HandedOut (payload : ℤ → Payload) (k : ℤ) : Prop :=
  ∃ buffer dend acked out,
    Reaches payload (inOrder payload)
      { buffer := buffer, dstart := k + 1, dend := dend,
        runs := [⟨k + 1, intMax, 1000 * k, 63000, false⟩,
          ⟨k, k, 1000 * (k - 1), 1000, false⟩] }
      acked out ∧ (out.length : ℤ) = 1000 * k

theorem handedOut_two (payload : ℤ → Payload) : HandedOut payload 2 := by
  have h : Reaches payload (inOrder payload) RingBuffer.initHead [] [] := reaches_start
  obtain ⟨_, _, -, h⟩ := h.store 1
    (fun t ht => inOrder_next (by decide) (by rw [ht]; decide)
      (by rw [ht]; rfl)) rfl (by decide) rfl
  have h := h.deliver 1000 (fun _ _ => trivial) rfl rfl rfl (by decide)
    (by decide) (by decide) rfl
  obtain ⟨_, _, -, h⟩ := h.store 2
    (fun t ht => inOrder_next (by decide) (by rw [ht]; exact le_refl 2)
      (by rw [ht]; rfl)) rfl (by decide) rfl
  have h := h.deliver 1000 (fun _ _ => trivial) rfl rfl rfl (by decide)
    (by decide) (by decide) rfl
  exact ⟨_, _, _, _, h, by simp⟩

theorem HandedOut.next {payload : ℤ → Payload} {k : ℤ} (hlow : 2 ≤ k)
    (hhigh : k ≤ 64) (hhanded : HandedOut payload k) :
    HandedOut payload (k + 1) := by
  obtain ⟨buffer, dend, acked, out, h, hout⟩ := hhanded
  have hseek : seek (k + 1) (k + 1) 1000 []
      [⟨k + 1, intMax, 1000 * k, 63000, false⟩,
        ⟨k, k, 1000 * (k - 1), 1000, false⟩] =
      some (.placed []
        { front := []
          node := ⟨k + 1, k + 1, 1000 * k, 1000, true⟩
          back := [⟨k + 1 + 1, intMax, 1000 * k + 1000, 62000, false⟩] }
        [⟨k, k, 1000 * (k - 1), 1000, false⟩]) := by
    have hlimit : signedInt (k + 1 + 63) = some (k + 1 + 63) :=
      if_pos (by omega)
    have hsucc : signedInt (k + 1 + 1) = some (k + 1 + 1) :=
      if_pos (by omega)
    rw [seek, if_neg (by simp), hlimit, Option.bind_some, if_neg (by omega),
      if_pos rfl]
    simp [fillRun, hsucc]
  have hmerge : mergeRuns (k + 1)
      [⟨k + 1, k + 1, 1000 * k, 1000, true⟩,
        ⟨k + 1 + 1, intMax, 1000 * k + 1000, 62000, false⟩,
        ⟨k, k, 1000 * (k - 1), 1000, false⟩] =
      some [⟨k + 1, k + 1, 1000 * k, 1000, true⟩,
        ⟨k + 1 + 1, intMax, 1000 * (k + 1), 63000, false⟩] := by
    have hopen : intMax ≠ k - 1 := by
      rw [intMax]
      omega
    have hdata : 1000 * k + 1000 = 1000 * (k + 1) := by omega
    simp [mergeRuns, walk, followsOn, sparesHoles, mergeSpare, firstRun, hopen,
      hdata]
  have hmerge' : mergeRuns (k + 1 + 1)
      [⟨k + 1 + 1, intMax, 1000 * (k + 1), 63000, false⟩,
        ⟨k + 1, k + 1, 1000 * k, 1000, false⟩] =
      some [⟨k + 1 + 1, intMax, 1000 * (k + 1), 63000, false⟩,
        ⟨k + 1, k + 1, 1000 * k, 1000, false⟩] := by
    have hopen : intMax ≠ k := by
      rw [intMax]
      omega
    simp [mergeRuns, walk, followsOn, sparesHoles, hopen]
  obtain ⟨buffer', dend', -, h⟩ :=
    h.store (k + 1)
      (fun t ht => inOrder_next (by rw [intMax]; omega)
        (by rw [ht]) (by rw [ht]; rfl))
      hseek (by simp only; omega) hmerge
  have h := h.deliver 1000 (fun _ _ => trivial) rfl rfl rfl (le_refl 1000)
    (by simp only; omega) (by simp only; omega) hmerge'
  have hback : 1000 * (k + 1 - 1) = 1000 * k := by omega
  refine ⟨_, _, _, _, by rw [hback]; exact h, ?_⟩
  rw [List.length_append, length_circRead]
  simp only [Int.reduceToNat]
  omega

theorem handedOut_last (payload : ℤ → Payload) : HandedOut payload 65 := by
  have hall : ∀ n : ℕ, n ≤ 63 → HandedOut payload (2 + n) := by
    intro n
    induction n with
    | zero => exact fun _ => handedOut_two payload
    | succ n ih =>
        intro hn
        have hnext := (ih (by omega)).next (by omega) (by omega)
        rwa [show (2 + n + 1 : ℤ) = 2 + ((n + 1 : ℕ) : ℤ) by omega] at hnext
  exact hall 63 le_rfl

/-- 65 packets that arrive in order do come through. -/
theorem inOrder_bounded_all :
    ∃ t, ((receiver numbered).restrict (inOrder numbered)).Reachable t ∧
      t.out.length = 65000 ∧ t.out.length ≤ 65000 ∧
      (∀ seqnum ∈ t.acked, seqnum ≤ 65) ∧
      (t.sbuffer.addData 66 1000 (numbered 66).toList = some (0, t.sbuffer) ∨
        ¬ CopiesInBuffer numbered t.sbuffer (.addData 66)) := by
  obtain ⟨_, _, _, out, ⟨t, hreach, hring, -, rfl⟩, hout⟩ :=
    handedOut_last numbered
  obtain ⟨hbound, hacked, hbehind⟩ := inOrder_bounded numbered t hreach
  exact ⟨t, hreach, by omega, hbound, hacked, hbehind 66 (by decide)
    (inOrder_next (by decide) (by rw [hring]; exact le_refl 66)
      (by rw [hring]; rfl))⟩

end UdpTransfer.Receiver
