import UdpTransfer.Receiver.Termination
import UdpTransfer.System.EndToEnd

/-!
# The whole stream

What is missing from the bytes handed out is on its way: in the buffer of the
sender, or held at the receiver.  Once the sender has its whole buffer free and
a request at the receiver gets nothing, nothing is missing.
-/

namespace UdpTransfer.EndToEnd

open UdpTransfer.Memory
open UdpTransfer.Runs
open UdpTransfer.Wire
open UdpTransfer.Sender
open UdpTransfer.Receiver
open UdpTransfer.Transfer
open SBuffer

/-! ## Filled runs hold bytes -/

def Weighty (runs : List Extent) : Prop :=
  ∀ run ∈ runs, run.filled = true → 0 < run.size

theorem weighty_mergeStep {dstart : ℤ} {left right : List Extent}
    (hstep : MergeStep dstart left right) (hweighty : Weighty left) :
    Weighty right := by
  apply hstep.forall_run hweighty
  · intro current hcurrent next hnext hfollow hfilled
    have hkinds := (followsOn_iff.1 hfollow).2
    have h1 := hweighty current hcurrent hfilled
    have h2 := hweighty next hnext (hkinds ▸ hfilled)
    simp only [mergeFollowing]
    omega
  · intro current _ next _ hspare hfilled
    rw [mergeSpare_filled, (sparesHoles_iff.1 hspare).1] at hfilled
    cases hfilled

theorem Weighty.mergeRuns {dstart : ℤ} {runs merged : List Extent}
    (hweighty : Weighty runs) (hmerge : mergeRuns dstart runs = some merged) :
    Weighty merged :=
  mergeRuns_invariant (fun _ _ => weighty_mergeStep) hmerge hweighty

theorem Weighty.arrival {r r' : RingBuffer} {seqnum result : ℤ}
    {data : List UInt8} (hweighty : Weighty r.runs) (hdata : data ≠ [])
    (harrival : Arrival r seqnum data result r') : Weighty r'.runs := by
  cases harrival with
  | duplicate _ => exact hweighty
  | rejected _ => exact hweighty
  | stored before after runs placed buffer dend hseek _ hmerge =>
      refine Weighty.mergeRuns ?_ hmerge
      obtain ⟨mid, cur, hfound, hruns, hhole, -, htakes⟩ := seek_placed hseek
      rw [List.nil_append] at hfound
      subst hfound
      intro run hrun hfilled
      rcases (mem_refill hhole htakes hfilled).1 hrun with hrun | rfl
      · exact hweighty run (hruns ▸ hrun) hfilled
      · have hlength := List.length_pos_of_ne_nil hdata
        rw [htakes.node.2.2.1]
        omega

theorem Weighty.delivery {r r' : RingBuffer} {size : ℤ} {bytes : List UInt8}
    (hweighty : Weighty r.runs) (hdelivery : Delivery r size bytes r') :
    Weighty r'.runs := by
  cases hdelivery with
  | nothing => exact hweighty
  | whole cur rest runs hruns _ _ _ hmerge =>
      refine Weighty.mergeRuns ?_ hmerge
      intro run hrun hfilled
      rw [List.mem_append, List.mem_singleton] at hrun
      rcases hrun with hrun | rfl
      · exact hweighty run (by simp [hruns, hrun]) hfilled
      · cases hfilled
  | part cur rest hruns hfilled _ _ hlt =>
      intro run hrun hfilled'
      rcases List.mem_cons.1 hrun with rfl | hrun
      · simp only
        omega
      · exact hweighty run (by simp [hruns, hrun]) hfilled'

/-- A request gets nothing only if `head` is not at `dstart`, or not filled. -/
theorem Weighty.not_ready {r r' : RingBuffer} {size count : ℤ} {cur : Extent}
    {rest : List Extent} (hweighty : Weighty r.runs)
    (hruns : r.runs = cur :: rest) (hsize : 0 < size)
    (hrequest : r.requestData size = some (count, [], r')) :
    ¬ (cur.filled = true ∧ cur.firstSeq = r.dstart) := by
  intro hready
  have hpos := hweighty cur (by simp [hruns]) hready.1
  have hnothing : ∀ len : ℤ, fetchBytes r.buffer cur len = some [] → len = 0 := by
    intro len hfetch
    obtain ⟨hnonneg, hbytes⟩ := fetchBytes_circRead hfetch
    have hlength := congrArg List.length hbytes
    rw [length_circRead, List.length_nil] at hlength
    omega
  rw [RingBuffer.requestData] at hrequest
  simp only [hruns] at hrequest
  rw [if_pos hready] at hrequest
  split at hrequest
  · obtain ⟨bytes, hfetch, hrequest⟩ := Option.bind_eq_some_iff.1 hrequest
    obtain ⟨dstart, -, hrequest⟩ := Option.bind_eq_some_iff.1 hrequest
    obtain ⟨_, -, heq⟩ := Option.map_eq_some_iff.1 hrequest
    cases heq
    have := hnothing _ hfetch
    omega
  · obtain ⟨bytes, hfetch, heq⟩ := Option.map_eq_some_iff.1 hrequest
    cases heq
    have := hnothing _ hfetch
    omega

/-! ## Every packet is listed or freed -/

/-- Each packet number given out is in the list or among the freed ones. -/
def Accounted (t : Sender.Session) : Prop :=
  ∀ num, 1 ≤ num → num < t.cbuffer.packseq →
    num ∈ t.freed ∨ ∃ node ∈ t.cbuffer.nodes, node.seqnum = num

/-- The packets listed by `checkWindow` bear all numbers given out by it. -/
theorem exists_new {s s' : CBuffer} {freed kept new : List PackNode}
    (hrewind : Rewindowed s freed kept new s') {num : ℤ}
    (hlow : s.packseq ≤ num) (hhigh : num < s'.packseq) :
    ∃ node ∈ new, node.seqnum = num := by
  have hcount := hrewind.new_tiles.seq_eq
  have hi : (num - s.packseq).toNat < new.length := by omega
  refine ⟨new[(num - s.packseq).toNat], List.getElem_mem hi, ?_⟩
  rw [hrewind.new_tiles.getElem_seqnum _ hi]
  omega

/-- What is listed before `checkWindow` is freed by it or listed afterwards. -/
theorem listed_or_freed {s s' : CBuffer} {freed kept new : List PackNode}
    (hrewind : Rewindowed s freed kept new s') {num : ℤ}
    (hlisted : ∃ node ∈ s.nodes, node.seqnum = num) :
    num ∈ freed.map PackNode.seqnum ∨ ∃ node ∈ s'.nodes, node.seqnum = num := by
  obtain ⟨node, hnode, rfl⟩ := hlisted
  rw [hrewind.nodes_eq, List.mem_append] at hnode
  rcases hnode with hnode | hnode
  · exact .inl (List.mem_map_of_mem hnode)
  · exact .inr ⟨node, by simp [hrewind.nodes_eq', hnode], rfl⟩

theorem exists_of_shape_eq {nodes nodes' : List PackNode}
    (hshape : shape nodes' = shape nodes) {num : ℤ}
    (hlisted : ∃ node ∈ nodes, node.seqnum = num) :
    ∃ node ∈ nodes', node.seqnum = num := by
  obtain ⟨node, hnode, rfl⟩ := hlisted
  obtain ⟨node', hnode', hseqnum, -, -⟩ := exists_of_shape hshape.symm hnode
  exact ⟨node', hnode', hseqnum⟩

theorem Accounted.called {t t' : Sender.Session} {c : Sender.Call}
    (haccounted : Accounted t) (hcalled : Sender.Called t c t') :
    Accounted t' := by
  intro num hlow hhigh
  cases hcalled with
  | addData chunk result s hadded =>
      simp only at hhigh ⊢
      have hrewind : ∃ mid new, mid.packseq = t.cbuffer.packseq ∧
          Rewindowed mid [] t.cbuffer.nodes new s := by
        cases hadded with
        | accepted mid s new hstored hrewind =>
            exact ⟨mid, new, hstored.packseq_eq, hrewind⟩
        | rejected mid s _ hmid hrewind =>
            have htouched := touched_spaceLeft t.cbuffer
            rw [← hmid] at htouched
            exact ⟨mid, [], htouched.packseq_eq, hrewind⟩
      obtain ⟨mid, new, hpackseq, hrewind⟩ := hrewind
      rcases lt_or_ge num t.cbuffer.packseq with hlt | hge
      · refine (haccounted num hlow hlt).imp_right ?_
        rintro ⟨node, hnode, hnum⟩
        exact ⟨node, by simp [hrewind.nodes_eq', hnode], hnum⟩
      · obtain ⟨node, hnode, hnum⟩ :=
          exists_new hrewind (by rwa [hpackseq]) hhigh
        exact .inr ⟨node, by simp [hrewind.nodes_eq', hnode], hnum⟩
  | sendWindow clock sents s htrans =>
      obtain ⟨hsame, hshape⟩ := htrans.sameBytes
      simp only at hhigh ⊢
      rw [hsame.packseq_eq] at hhigh
      exact (haccounted num hlow hhigh).imp_right (exists_of_shape_eq hshape)
  | recvACK num' stop result freed s hacked =>
      simp only [List.mem_append] at hhigh ⊢
      cases hacked with
      | absent i s _ _ hsame hnodes _ =>
          rw [hsame.packseq_eq] at hhigh
          rw [hnodes]
          exact (haccounted num hlow hhigh).imp_left .inl
      | listed i mid s before after node freed kept new _ hnodes _ hsame hmid _
          hrewind =>
          have hshape : shape mid.nodes = shape t.cbuffer.nodes := by
            rw [hmid, hnodes, shape_marked]
          rcases lt_or_ge num t.cbuffer.packseq with hlt | hge
          · rcases haccounted num hlow hlt with hfreed | hlisted
            · exact .inl (.inl hfreed)
            · exact (listed_or_freed hrewind
                (exists_of_shape_eq hshape hlisted)).imp_left .inr
          · obtain ⟨node, hnode, hnum⟩ :=
              exists_new hrewind (by rwa [hsame.packseq_eq]) hhigh
            exact .inr ⟨node, by simp [hrewind.nodes_eq', hnode], hnum⟩
  | timerExpire bsn =>
      simp only at hhigh ⊢
      exact (haccounted num hlow hhigh).imp_right
        (exists_of_shape_eq (shape_timerExpire _ _))

/-! ## Every step -/

/-- Each acknowledgement is for a full packet. -/
def FullAcks (t : Transfer.State) : Prop :=
  ∀ ack ∈ t.acks, ∃ bytes, packet t.sender.packets (seqnumOf ack) = some bytes ∧
    bytes.length = 1000

structure Completes (t : Transfer.State) : Prop where
  accounted : Accounted t.sender
  fullAcks : FullAcks t
  weighty : Weighty t.sbuffer.toRing.runs

theorem completes_start : Completes Transfer.start := by
  refine ⟨?_, ?_, ?_⟩
  · intro num hlow hhigh
    exact absurd (hlow.trans_lt hhigh) (by decide)
  · intro ack hack
    cases hack
  · rw [show Transfer.start.sbuffer = SBuffer.initHead from rfl,
      SBuffer.initHead_represents.toRing_eq]
    intro run hrun hfilled
    simp only [RingBuffer.initHead, List.mem_singleton] at hrun
    rw [hrun] at hfilled
    cases hfilled

theorem Completes.step {t t' : Transfer.State} {e : Event}
    (hcompletes : Completes t) (hsafe : Safe t) (hrecorded : Recorded t.sender)
    (henabled : enabled t e) (hstep : t.step e = some t') : Completes t' := by
  obtain ⟨haccounted, hfullAcks, hweighty⟩ := hcompletes
  cases e with
  | send c =>
      rw [Transfer.State.step, Option.map_eq_some_iff] at hstep
      obtain ⟨sender, hcall, rfl⟩ := hstep
      obtain ⟨hcalled, -⟩ := hsafe.window.called hcall
      refine ⟨haccounted.called hcalled, ?_, hweighty⟩
      intro ack hack
      obtain ⟨bytes, hpacket, hlength⟩ := hfullAcks ack hack
      obtain ⟨new, hnew⟩ := packets_append hcalled
      refine ⟨bytes, ?_, hlength⟩
      simp only
      rw [hnew]
      exact packet_append new hpacket
  | arrive d remote memory buffer tempbuf =>
      obtain ⟨-, -, hpacket⟩ := packet_of_sent hrecorded henabled.1
      obtain ⟨result, sbuffer, harrival, rfl⟩ :=
        arrive_cases hrecorded hsafe.has.merged henabled hstep
      refine ⟨haccounted, ?_, hweighty.arrival ?_ harrival⟩
      · intro ack hack
        rcases List.mem_append.1 hack with hack | hack
        · split at hack
          · rw [List.mem_singleton] at hack
            subst hack
            exact ⟨d.payload, hpacket, henabled.2⟩
          · cases hack
        · exact hfullAcks ack hack
      · intro hempty
        have hlength := henabled.2
        rw [hempty] at hlength
        cases hlength
  | requestData size =>
      rw [Transfer.State.step, Option.map_eq_some_iff] at hstep
      obtain ⟨⟨count, bytes, sbuffer⟩, hrequest, rfl⟩ := hstep
      obtain ⟨hdelivery, -⟩ := hsafe.has.merged.requestData hrequest
      exact ⟨haccounted, hfullAcks, hweighty.delivery hdelivery⟩

theorem completes_reachable {s : State}
    (hreach : (delivery.restrict undisturbed).Reachable s) :
    Completes s.transfer := by
  refine hreach.invariant_with (I := fun s => Completes s.transfer)
    (J := fun s => Safe s.transfer ∧ Delivers s) ?_ ?_ ?_
  · intro s hreach
    exact ⟨safe_reachable (transfer_reachable hreach.of_restrict),
      delivers_reachable hreach⟩
  · rintro s rfl
    exact completes_start
  · intro s e s' hknown hcompletes hstep
    exact hcompletes.step hknown.1 hknown.2.recorded hstep.2.1.1 hstep.2.1.2

/-! ## Nothing is missing -/

theorem length_flatten {packets : List (List UInt8)}
    (hfull : ∀ bytes ∈ packets, bytes.length = 1000) :
    packets.flatten.length = 1000 * packets.length := by
  induction packets with
  | nil => rfl
  | cons bytes packets ih =>
      rw [List.forall_mem_cons] at hfull
      rw [List.flatten_cons, List.length_append, hfull.1, ih hfull.2,
        List.length_cons]
      omega

/-- Where the sender has its whole buffer free, all its packets were full, and
the receiver has them. -/
theorem all_covered {s : State} (hdelivers : Delivers s)
    (hsafe : Safe s.transfer) (hcompletes : Completes s.transfer)
    (hspace : s.transfer.sender.cbuffer.spaceLeft.1 = 64000) :
    (s.transfer.sender.accepted.length : ℤ) =
        1000 * (s.transfer.sender.cbuffer.packseq - 1) ∧
      ∀ num, 1 ≤ num → num < s.transfer.sender.cbuffer.packseq →
        Covered s.transfer.sbuffer.toRing num := by
  obtain ⟨done, hlength, -, hcut⟩ := hdelivers.streamed
  have hcount := hdelivers.recorded.count
  have hused : used s.transfer.sender.cbuffer = 0 := by
    rw [spaceLeft_eq] at hspace
    simp only at hspace
    omega
  have htotal : total s.transfer.sender.cbuffer.nodes = 0 := by
    rw [hsafe.window.total_eq, hused]
    rfl
  have hnodes : s.transfer.sender.cbuffer.nodes = [] := by
    obtain ⟨first, htiles⟩ := hsafe.window.tiles
    by_contra hne
    have := total_pos hne htiles.size_bounds
    omega
  have hknown : ∀ num, 1 ≤ num → num < s.transfer.sender.cbuffer.packseq →
      s.transfer.known num := by
    intro num hlow hhigh
    rcases hcompletes.accounted num hlow hhigh with hfreed | ⟨node, hnode, -⟩
    · exact hsafe.acked.freed num hfreed
    · rw [hnodes] at hnode
      cases hnode
  constructor
  · have hfull : ∀ bytes ∈ s.transfer.sender.packets, bytes.length = 1000 := by
      intro bytes hbytes
      obtain ⟨i, hi, rfl⟩ := List.getElem_of_mem hbytes
      obtain ⟨ack, hack, hnum⟩ := hknown (i + 1) (by omega) (by omega)
      obtain ⟨bytes, hpacket, hfull⟩ := hcompletes.fullAcks ack hack
      rw [hnum, packet, if_pos (by omega), show ((i : ℤ) + 1 - 1).toNat = i by
        omega, List.getElem?_eq_getElem hi, Option.some_inj] at hpacket
      rwa [hpacket]
    rw [htotal, List.take_of_length_le (by simp; omega)] at hcut
    rw [← hcut, length_flatten hfull]
    push_cast
    omega
  · exact fun num hlow hhigh => hsafe.has.covered num (hknown num hlow hhigh)

/-- Where `head` is not ready, nothing at `dstart` has been received. -/
theorem not_covered_dstart {r : RingBuffer} {cur : Extent} {rest : List Extent}
    (hlayout : Layout r.dstart r.runs) (hruns : r.runs = cur :: rest)
    (hready : ¬ (cur.filled = true ∧ cur.firstSeq = r.dstart)) :
    ¬ Covered r r.dstart := by
  rintro (hlate | ⟨run, hrun, hfilled, hlow, hhigh⟩)
  · exact lt_irrefl _ hlate
  · rw [hruns] at hlayout hrun
    have hlive : r.dstart ≤ run.firstSeq := by
      have := (hlayout.run_ok run hrun).side
      omega
    have hfirst := hlayout.head_live hrun hlive
    rcases List.mem_cons.1 hrun with rfl | hrest
    · exact hready ⟨hfilled, hfirst⟩
    · have hordered := (hlayout.run_ok cur (by simp)).ordered
      have hpairs := List.rel_of_pairwise_cons hlayout.pairwise hrest
      omega

theorem Delivers.eq_accepted {s : State} (hdelivers : Delivers s)
    (hsafe : Safe s.transfer) (hcompletes : Completes s.transfer)
    (hspace : s.transfer.sender.cbuffer.spaceLeft.1 = 64000) {size : ℤ}
    (hsize : 0 < size)
    (hnothing : ∃ count rest,
      s.transfer.sbuffer.requestData size = some (count, [], rest)) :
    s.out = s.transfer.sender.accepted := by
  obtain ⟨hlength, hcovered⟩ :=
    all_covered hdelivers hsafe hcompletes hspace
  obtain ⟨count, rest, hrequest⟩ := hnothing
  obtain ⟨cur, runs, hruns⟩ :=
    List.exists_cons_of_ne_nil hsafe.has.merged.sound.nonempty
  have hready := hcompletes.weighty.not_ready hruns hsize
    (hsafe.has.merged.toRing_requestData hrequest)
  obtain ⟨hlayout, -, hhanded⟩ := (hdelivers.faithful _
    (fits_filler _ 0)).holding
  have hdstart : s.transfer.sender.cbuffer.packseq ≤
      s.transfer.sbuffer.toRing.dstart := by
    by_contra hlt
    exact not_covered_dstart hlayout hruns hready
      (hcovered _ hlayout.one_le (not_le.mp hlt))
  rw [hruns, handedOut, if_neg hready] at hhanded
  exact hdelivers.prefix_accepted.eq_of_length_le (by omega)

/-- Once the sender has its whole buffer free and a request at the receiver gets
nothing, the bytes handed out are those that the sender accepted. -/
theorem out_eq_accepted (s : State)
    (hreach : (delivery.restrict undisturbed).Reachable s)
    (hspace : s.transfer.sender.cbuffer.spaceLeft.1 = 64000) (size : ℤ)
    (hsize : 0 < size)
    (hnothing : ∃ count rest,
      s.transfer.sbuffer.requestData size = some (count, [], rest)) :
    s.out = s.transfer.sender.accepted :=
  (delivers_reachable hreach).eq_accepted
    (safe_reachable (transfer_reachable hreach.of_restrict))
    (completes_reachable hreach) hspace hsize hnothing

theorem out_eq_accepted_exchanged :
    ∃ s, (delivery.restrict undisturbed).Reachable s ∧ s.out.length = 1000 ∧
      s.out = s.transfer.sender.accepted := by
  obtain ⟨s, hreach, hlength, hspace, hnothing⟩ := exists_exchanged
  exact ⟨s, hreach, hlength,
    out_eq_accepted s hreach hspace 1000 (by decide) ⟨0, hnothing⟩⟩

end UdpTransfer.EndToEnd
