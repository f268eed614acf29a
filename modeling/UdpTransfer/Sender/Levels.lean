import UdpTransfer.Core.Machines
import UdpTransfer.Sender.Accounting
import UdpTransfer.Sender.Estimator
import UdpTransfer.Sender.Stream

/-!
# The circular buffer and a queue

The same operations on the circular buffer of `cbuffer.c` and on a queue, from
whose front the packets are cut one behind the other.  Over any sequence of
calls the two give the same results, free the same packets and send the same
datagrams, and a call that does not return on one side does not return on the
other.  In two cases the queue holds more than was put into it and passes for
full: when an empty chunk is added while it is empty, and when its last packet
is freed while the buffer is written up to its end.
-/

namespace UdpTransfer.Sender

open UdpTransfer.Machines
open UdpTransfer.Memory
open UdpTransfer.Wire

/-- A packet, cut from the queue. -/
structure Packet where
  seqnum : ℤ
  size : ℤ
  ack : ℤ
  deriving DecidableEq

structure Outbox where
  /-- The last 64000 bytes that were added, with those that are queued at the
  end. -/
  recent : List UInt8
  used : ℤ
  /-- Where the buffer has been written up to. -/
  dend : ℤ
  packets : List Packet
  packseq : ℤ
  packtimes : List RttPack
  estimate : ℚ × ℚ × ℚ

def sumSizes (packets : List Packet) : ℤ := (packets.map Packet.size).sum

namespace Outbox

def start : Outbox where
  recent := List.replicate 64000 0
  used := 0
  dend := 0
  packets := []
  packseq := 1
  packtimes := CBuffer.start.packtimes
  estimate := CBuffer.start.estimate

def queue (o : Outbox) : List UInt8 := o.recent.drop (64000 - o.used).toNat

/-! ## The window -/

/-- Takes the acknowledged packets in front out of the queue.  Their numbers are
returned. -/
def free (o : Outbox) : List ℤ × Outbox :=
  let freed := o.packets.takeWhile fun packet => packet.ack = 2
  let used := o.used - sumSizes freed
  (freed.map Packet.seqnum,
    { o with
      packets := o.packets.dropWhile fun packet => packet.ack = 2
      used := if freed ≠ [] ∧ used = 0 ∧ o.dend = 64000 then 64000 else used })

/-- Cuts packets of at most 1000 bytes from `count` bytes. -/
def cut (packseq count : ℤ) : Option (List Packet × ℤ) :=
  if count > 0 then
    let size := min 1000 count
    (signedInt (packseq + 1)).bind fun succ =>
      (cut succ (count - size)).map fun (packets, packseq') =>
        ({ seqnum := packseq, size := size, ack := 0 } :: packets, packseq')
  else
    some ([], packseq)
termination_by count.toNat
decreasing_by omega

/-- Cuts packets until they take up the first 20000 bytes of the queue. -/
def fill (o : Outbox) : Option Outbox :=
  (cut o.packseq (min o.used 20000 - sumSizes o.packets)).map
    fun (new, packseq) =>
      { o with packets := o.packets ++ new, packseq := packseq }

def checkWindow (o : Outbox) : Option (List ℤ × Outbox) :=
  let (freed, o) := o.free
  o.fill.map fun o => (freed, o)

/-! ## The calls -/

def store (o : Outbox) (chunk : List UInt8) : Outbox :=
  { o with
    recent := (o.recent ++ chunk).drop chunk.length
    used := if o.used + chunk.length = 0 then 64000 else o.used + chunk.length
    dend :=
      if 64000 - o.dend ≥ chunk.length then o.dend + chunk.length
      else chunk.length - (64000 - o.dend) }

def addData (o : Outbox) (chunk : List UInt8) :
    Option (ℤ × List ℤ × Outbox) :=
  if 64000 - o.used ≥ chunk.length then
    (o.store chunk).checkWindow.map fun (freed, o) => (1, freed, o)
  else
    o.checkWindow.map fun (freed, o) => (0, freed, o)

/-- Sends those packets that are not under way, of which the first is number `i`
of the list and begins with `bytes`. -/
def sendFrom (clock : ℕ → Timespec) : ℕ → List UInt8 → List RttPack →
    List Packet → Option (List Sent × List RttPack × List Packet)
  | _, _, packtimes, [] => some ([], packtimes, [])
  | i, bytes, packtimes, packet :: packets =>
      let rest := bytes.drop packet.size.toNat
      if packet.ack > 0 then
        (sendFrom clock (i + 1) rest packtimes packets).map
          fun (sents, packtimes, packets) =>
            (sents, packtimes, packet :: packets)
      else
        (packtimes.findIdx? fun slot => slot.on = 0).bind fun slot =>
          (sendFrom clock (i + 1) rest
            (packtimes.set slot
              { bsn := packet.seqnum, on := 1, timestart := clock i })
            packets).map fun (sents, packtimes, packets) =>
              ({ bsn := packet.seqnum
                 datagram := datagram packet.seqnum
                   (bytes.take packet.size.toNat) } :: sents,
                packtimes, { packet with ack := 1 } :: packets)

def sendWindow (o : Outbox) (clock : ℕ → Timespec) :
    Option (List Sent × Outbox) :=
  (sendFrom clock 0 o.queue o.packtimes o.packets).map
    fun (sents, packtimes, packets) =>
      (sents, { o with packtimes := packtimes, packets := packets })

def markAcked (num : ℤ) : List Packet → Option (List Packet)
  | [] => none
  | packet :: packets =>
      if packet.seqnum = num then
        some ({ packet with ack := 2 } :: packets)
      else
        (markAcked num packets).map fun packets => packet :: packets

/-- The estimate after one more sample. -/
def sampled (estimate : ℚ × ℚ × ℚ) (delta : ℚ) : ℚ × ℚ × ℚ :=
  let (srtt, rttvar, rto) := estimate
  (CBuffer.timeComps
    { CBuffer.start with srtt := srtt, rttvar := rttvar, rto := rto }
    delta).estimate

def recvACK (o : Outbox) (num : ℤ) (stop : Timespec) :
    Option (ℤ × List ℤ × Outbox) :=
  (o.packtimes.findIdx? fun slot => slot.bsn = num).bind fun i =>
    let started := (o.packtimes[i]?.map RttPack.timestart).getD ⟨0, 0⟩
    let o := { o with
      estimate := sampled o.estimate (CBuffer.elapsed started stop)
      packtimes := o.packtimes.modify i fun slot => { slot with on := 0 } }
    match markAcked num o.packets with
    | some packets =>
        (checkWindow { o with packets := packets }).map fun (freed, o) =>
          (1, freed, o)
    | none => some (0, [], o)

def timerExpire (o : Outbox) (bsn : ℤ) : Outbox :=
  { o with
    packets := o.packets.map fun packet =>
      if packet.seqnum = bsn then { packet with ack := 0 } else packet
    packtimes := o.packtimes.map fun slot =>
      if slot.bsn = bsn then { slot with on := 0 } else slot }

end Outbox

/-! ## The two machines -/

/-- The return value, the numbers of the packets freed, and what is sent. -/
abbrev Answer : Type := ℤ × List ℤ × List Sent

def bufferLevel : Machine CBuffer Call Answer where
  start := CBuffer.start
  op s
    | .addData chunk =>
        (s.addData chunk chunk.length).map fun (result, freed, s) =>
          ((result, freed.map PackNode.seqnum, []), s)
    | .sendWindow clock =>
        (s.sendWindow clock).map fun (sents, s) => ((0, [], sents), s)
    | .recvACK num stop =>
        (s.recvACK num stop).map fun (result, freed, s) =>
          ((result, freed.map PackNode.seqnum, []), s)
    | .timerExpire bsn => some ((0, [], []), s.timerExpire bsn)

def queueLevel : Machine Outbox Call Answer where
  start := Outbox.start
  op o
    | .addData chunk =>
        (o.addData chunk).map fun (result, freed, o) => ((result, freed, []), o)
    | .sendWindow clock =>
        (o.sendWindow clock).map fun (sents, o) => ((0, [], sents), o)
    | .recvACK num stop =>
        (o.recvACK num stop).map fun (result, freed, o) =>
          ((result, freed, []), o)
    | .timerExpire bsn => some ((0, [], []), o.timerExpire bsn)

def PackNode.packet (node : PackNode) : Packet where
  seqnum := node.seqnum
  size := node.size
  ack := node.ack

/-- What a circular buffer holds, as a queue. -/
def CBuffer.outbox (s : CBuffer) : Outbox where
  recent := circRead 64000 s.cirbuffer s.dend 64000
  used := used s
  dend := s.dend
  packets := s.nodes.map PackNode.packet
  packseq := s.packseq
  packtimes := s.packtimes
  estimate := s.estimate

theorem outbox_start : CBuffer.start.outbox = Outbox.start := by
  have hrecent : circRead 64000 CBuffer.start.cirbuffer CBuffer.start.dend
      64000 = List.replicate 64000 0 := by
    rw [List.eq_replicate_iff]
    refine ⟨length_circRead _ _ _ _, fun byte hbyte => ?_⟩
    obtain ⟨i, -, rfl⟩ := List.mem_map.1 hbyte
    rfl
  rw [CBuffer.outbox, hrecent]
  rfl

/-! ## The window -/

theorem sumSizes_map_packet (nodes : List PackNode) :
    sumSizes (nodes.map PackNode.packet) = total nodes := by
  rw [sumSizes, total, List.map_map]
  rfl

theorem cut_newPackNodes (data packseq dist : ℤ) :
    (CBuffer.newPackNodes data packseq dist).map
        (Prod.map (List.map PackNode.packet) id) = Outbox.cut packseq dist := by
  induction data, packseq, dist using CBuffer.newPackNodes.induct with
  | case1 data packseq dist hpos mini ih =>
      rw [CBuffer.newPackNodes, Outbox.cut, if_pos hpos, if_pos hpos,
        Option.map_bind]
      apply congrArg
      funext succ
      rw [Function.comp_apply, ← ih succ, Option.map_map, Option.map_map]
      rfl
  | case2 data packseq dist hpos =>
      rw [CBuffer.newPackNodes, Outbox.cut, if_neg hpos, if_neg hpos]
      rfl

/-- The buffer between two parts of a call: nothing is assumed of the packets
but that they fit into the window. -/
structure Loose (s : CBuffer) : Prop extends InBuffer s where
  sizes : ∀ node ∈ s.nodes, 1 ≤ node.size ∧ node.size ≤ 1000
  total_le : total s.nodes ≤ min (used s) 20000

theorem Window.loose {s : CBuffer} (hs : Window s) : Loose s := by
  obtain ⟨first, htiles⟩ := hs.tiles
  exact ⟨hs.toInBuffer, htiles.size_bounds, hs.total_eq.le⟩

section

variable {s : CBuffer}

/-- What is left of the stored bytes when packets in front are freed. -/
theorem Loose.used_free (hs : Loose s) {freed kept : List PackNode}
    (hnodes : s.nodes = freed ++ kept) :
    usedOf ((s.dstart + total freed) % 64000) s.dend
        (if s.nodes ≠ [] ∧ kept = [] then 1 else s.isEmpty) =
      if freed ≠ [] ∧ used s - total freed = 0 ∧ s.dend = 64000 then 64000
      else used s - total freed := by
  have hbounds := used_bounds hs.toInBuffer
  have hlow := hs.dstart_nonneg
  have hhigh := hs.dstart_lt
  have htotal := hs.total_le
  have hsizes := hs.sizes
  rw [hnodes, total_append] at htotal
  rw [hnodes, List.forall_mem_append] at hsizes
  have hkept := total_nonneg hsizes.2
  by_cases hfreed : freed = []
  · have hsame : s.nodes = kept := by rw [hnodes, hfreed, List.nil_append]
    rw [hfreed, hsame, total_nil, add_zero, sub_zero,
      Int.emod_eq_of_lt hlow hhigh, if_neg (by tauto), if_neg (by tauto)]
    rfl
  · have hpos := total_pos hfreed hsizes.1
    rcases lt_or_ge (total freed) (used s) with hlt | hge
    · rw [usedOf_advance hlow hhigh hs.dend_nonneg hs.dend_le hpos hlt,
        if_neg (by omega)]
      rfl
    · have hnone : kept = [] := by
        by_contra hne
        have := total_pos hne hsizes.2
        omega
      have hall : total freed = used s := by omega
      rw [if_pos ⟨by simp [hnodes, hfreed], hnone⟩,
        usedOf_drain hlow hhigh hs.dend_nonneg hs.dend_le hpos (by omega) hall,
        hall, sub_self]
      simp only [ne_eq, hfreed, not_false_eq_true, true_and]

/-- What `freeAcked` frees and leaves. -/
theorem Loose.freeAcked (hs : Loose s) :
    ((s.freeAcked s.nodes).1.map PackNode.seqnum,
        (s.freeAcked s.nodes).2.outbox) = s.outbox.free ∧
      Loose (s.freeAcked s.nodes).2 := by
  have hnodes := (List.takeWhile_append_dropWhile
    (p := acked) (l := s.nodes)).symm
  have hsizes := hs.sizes
  have htotal := hs.total_le
  rw [hnodes, List.forall_mem_append] at hsizes
  have hused := hs.used_free hnodes
  have hkept := total_nonneg hsizes.2
  have hpackets : ∀ p : Packet → Bool, p ∘ PackNode.packet = acked →
      (s.nodes.map PackNode.packet).takeWhile p =
        (s.nodes.takeWhile acked).map PackNode.packet ∧
      (s.nodes.map PackNode.packet).dropWhile p =
        (s.nodes.dropWhile acked).map PackNode.packet := by
    rintro p hp
    rw [List.takeWhile_map, List.dropWhile_map, hp]
    exact ⟨rfl, rfl⟩
  obtain ⟨htake, hdrop⟩ := hpackets (fun packet => packet.ack = 2) rfl
  rw [freeAcked_eq, foldl_cmod hs.dstart_nonneg hs.dstart_lt hsizes.1]
  constructor
  · rw [Outbox.free, CBuffer.outbox, CBuffer.outbox]
    simp only [used, htake, hdrop, hused, sumSizes_map_packet, List.map_map, ne_eq,
      List.map_eq_nil_iff]
    rfl
  · refine ⟨⟨?_, ?_, hs.dend_nonneg, hs.dend_le⟩, hsizes.2, ?_⟩
    · exact Int.emod_nonneg _ (by decide)
    · exact Int.emod_lt_of_pos _ (by decide)
    · rw [hnodes, total_append] at htotal
      have hfreed := total_nonneg hsizes.1
      simp only [used, hused]
      rw [used] at htotal
      split_ifs <;> omega

/-- What `fillWindow` lists depends on the queue only. -/
theorem Loose.fillWindow (hs : Loose s) :
    s.fillWindow.map CBuffer.outbox = s.outbox.fill := by
  have hbounds := used_bounds hs.toInBuffer
  have hnonneg := total_nonneg hs.sizes
  rw [CBuffer.fillWindow, spaceLeft_eq, Outbox.fill]
  dsimp only
  rw [sub_sub_cancel, disttowindow_eq hs.dstart_nonneg hs.dstart_lt hbounds.1]
  have htouch : ∀ windowend nodes packseq,
      ({ s with
        windowend := windowend
        nodes := nodes
        packseq := packseq
        isEmpty := if s.dstart = s.dend then s.isEmpty else 0 } :
          CBuffer).outbox =
        { s.outbox with
          packets := nodes.map PackNode.packet
          packseq := packseq } := by
    intro windowend nodes packseq
    simp only [CBuffer.outbox, used, usedOf_touch]
    rfl
  have hcount : sumSizes s.outbox.packets = total s.nodes :=
    sumSizes_map_packet s.nodes
  rw [hcount, ← total]
  split
  · rw [← cut_newPackNodes (CBuffer.nextData
      { s with isEmpty := if s.dstart = s.dend then s.isEmpty else 0 }),
      Option.map_map, Option.map_map]
    apply congrArg (Option.map · _)
    funext cut
    obtain ⟨new, packseq⟩ := cut
    simp only [Function.comp_apply, htouch, List.map_append]
    rfl
  · rename_i hzero
    have hnone : Outbox.cut s.packseq (min (used s) 20000 - total s.nodes) =
        some ([], s.packseq) := by
      rw [Outbox.cut, if_neg (by omega)]
    have hsame : s.outbox.packets ++ [] = s.nodes.map PackNode.packet :=
      List.append_nil _
    refine Eq.trans ?_ (congrArg (Option.map _) hnone.symm)
    simp only [Option.map_some, htouch, hsame]

theorem Loose.checkWindow (hs : Loose s) :
    s.checkWindow.map (Prod.map (List.map PackNode.seqnum) CBuffer.outbox) =
      s.outbox.checkWindow := by
  obtain ⟨hfree, hloose⟩ := hs.freeAcked
  rw [CBuffer.checkWindow, Outbox.checkWindow, ← hfree]
  dsimp only
  rw [← hloose.fillWindow, Option.map_map, Option.map_map]
  rfl

/-! ## addData -/

/-- What was written last pushes out what was written first. -/
theorem circRead_behind {mem mem' : ℕ → UInt8} {a : ℤ} {src : List UInt8}
    (hwrite : CircWrite 64000 mem mem' a src) (hsrc : src.length ≤ 64000) :
    circRead 64000 mem' (a + src.length) 64000 =
      (circRead 64000 mem a 64000 ++ src).drop src.length := by
  apply List.ext_getElem
  · rw [List.length_drop, List.length_append, length_circRead, length_circRead]
    omega
  · intro i hi _
    rw [length_circRead] at hi
    rw [getElem_circRead, List.getElem_drop, List.getElem_append]
    split
    · rename_i hold
      rw [length_circRead] at hold
      rw [getElem_circRead, Nat.cast_add, add_assoc]
      apply hwrite.outside
      intro j hj hmod
      obtain ⟨k, hk⟩ := Int.modEq_iff_dvd.1 hmod
      omega
    · rename_i hnew
      rw [length_circRead] at hnew
      rw [← hwrite.inside]
      apply circ_congr
      apply Int.modEq_iff_dvd.2
      exact ⟨-1, by rw [length_circRead]; omega⟩

/-- A chunk for which there is room is stored, in the queue as in the buffer. -/
theorem Window.store (hs : Window s) {chunk : List UInt8}
    (hroom : 64000 - used s ≥ chunk.length) :
    ∃ mid, s.spaceLeft.2.store chunk chunk.length = some mid ∧
      CBuffer.outbox { mid with isEmpty := 0 } = s.outbox.store chunk ∧
      Loose { mid with isEmpty := 0 } := by
  have hbounds := used_bounds hs.toInBuffer
  obtain ⟨mid, hstore⟩ := store_isSome hs.toInBuffer hroom
  have hstored := store_stored hs.toInBuffer hroom hstore
  have hdend : ({ mid with isEmpty := 0 } : CBuffer).dend =
      if 64000 - s.dend ≥ chunk.length then s.dend + chunk.length
      else chunk.length - (64000 - s.dend) := by
    rw [spaceLeft_eq, CBuffer.store] at hstore
    dsimp only at hstore
    split at hstore
    · rename_i hfit
      obtain ⟨cirbuffer, -, rfl⟩ := Option.map_eq_some_iff.1 hstore
      rw [if_pos hfit]
    · rename_i hfit
      obtain ⟨first, -, hrest⟩ := Option.bind_eq_some_iff.1 hstore
      obtain ⟨second, -, rfl⟩ := Option.map_eq_some_iff.1 hrest
      rw [if_neg hfit]
  have hestimate : ({ mid with isEmpty := 0 } : CBuffer).estimate =
      s.estimate := by
    have hsame := estimate_store hstore
    rw [spaceLeft_eq] at hsame
    exact hsame
  refine ⟨mid, hstore, ?_⟩
  revert hstored hdend hestimate
  generalize ({ mid with isEmpty := 0 } : CBuffer) = filled
  intro hstored hdend hestimate
  have hrecent : circRead 64000 filled.cirbuffer filled.dend 64000 =
      (circRead 64000 s.cirbuffer s.dend 64000 ++ chunk).drop chunk.length := by
    rw [← circRead_behind hstored.write (by omega)]
    apply circRead_congr
    intro i _
    exact circ_congr (hstored.dend_mod.add_right _)
  have hused : used filled =
      if used s + chunk.length = 0 then 64000 else used s + chunk.length := by
    split
    · rename_i hzero
      have hpos := hstored.used_pos
      have hhigh := used_bounds hstored.inBuffer
      have hmod := dend_modEq hstored.inBuffer
      have hmod' := (dend_modEq hs.toInBuffer).add_right (chunk.length : ℤ)
      have hboth := (hmod.symm.trans hstored.dend_mod).trans hmod'
      rw [hstored.dstart_eq] at hboth
      obtain ⟨k, hk⟩ := Int.modEq_iff_dvd.1 hboth
      omega
    · rename_i hne
      apply hstored.used_add_length hs.toInBuffer
      rintro rfl hused
      exact hne (by rw [hused]; rfl)
  constructor
  · rw [CBuffer.outbox, Outbox.store, CBuffer.outbox]
    dsimp only
    rw [hrecent, hused, hdend, hstored.nodes_eq, hstored.packseq_eq,
      hstored.packtimes_eq, hestimate]
  · refine ⟨hstored.inBuffer, ?_, ?_⟩
    · rw [hstored.nodes_eq]
      exact hs.loose.sizes
    · have hle := hstored.used_le
      have htotal := hs.total_eq
      rw [hstored.nodes_eq]
      omega

theorem Window.map_addData (hs : Window s) (chunk : List UInt8) :
    (s.addData chunk chunk.length).map
        (Prod.map id (Prod.map (List.map PackNode.seqnum) CBuffer.outbox)) =
      s.outbox.addData chunk := by
  have hbounds := used_bounds hs.toInBuffer
  have hspace := spaceLeft_eq s
  rw [CBuffer.addData, Outbox.addData, hspace]
  dsimp only
  rw [abs_of_nonneg (by omega)]
  by_cases hroom : 64000 - used s ≥ chunk.length
  · obtain ⟨mid, hstore, hqueue, hloose⟩ := hs.store hroom
    rw [hspace] at hstore
    rw [if_pos hroom, hstore, Option.bind_some]
    refine Eq.trans ?_ (if_pos hroom).symm
    rw [← hqueue, ← hloose.checkWindow, Option.map_map, Option.map_map]
    rfl
  · have hloose : Loose s.spaceLeft.2 :=
      ((touched_spaceLeft s).window hs).loose
    have hqueue : s.spaceLeft.2.outbox = s.outbox := by
      rw [spaceLeft_eq]
      simp only [CBuffer.outbox, used, usedOf_touch]
      rfl
    rw [if_neg hroom]
    refine Eq.trans ?_ (if_neg hroom).symm
    rw [← hqueue, ← hloose.checkWindow, Option.map_map, Option.map_map, hspace]
    rfl

/-! ## sendWindow -/

theorem queue_eq (hs : InBuffer s) : s.outbox.queue =
    circRead 64000 s.cirbuffer s.dstart (used s).toNat := by
  have hbounds := used_bounds hs
  rw [Outbox.queue, CBuffer.outbox]
  dsimp only
  rw [← circRead_rest rfl (show (64000 - used s).toNat ≤ 64000 by omega),
    show 64000 - (64000 - used s).toNat = (used s).toNat by omega]
  apply circRead_congr
  intro i _
  apply circ_congr
  apply Int.ModEq.add_right
  obtain ⟨k, hk⟩ := Int.modEq_iff_dvd.1 (dend_modEq hs)
  apply Int.modEq_iff_dvd.2
  exact ⟨k - 1, by omega⟩

/-- The bytes of a packet are those at its place in the queue. -/
theorem Window.bytes_eq (hs : Window s) {before after : List PackNode}
    {node : PackNode} (hnodes : s.nodes = before ++ node :: after) :
    (s.outbox.queue.drop (total before).toNat).take node.size.toNat =
      circRead 64000 s.cirbuffer node.data node.size.toNat := by
  obtain ⟨first, htiles⟩ := hs.tiles
  have htotal := hs.total_eq
  have hsizes := htiles.size_bounds
  rw [hnodes, total_append, total_cons] at htotal
  rw [hnodes, List.forall_mem_append, List.forall_mem_cons] at hsizes
  have hbefore := total_nonneg hsizes.1
  have hafter := total_nonneg hsizes.2.2
  rw [hnodes] at htiles
  obtain ⟨mid, midSeq, hfront, hdata, -⟩ := tiles_append.1 htiles
  have hmid := hfront.end_eq hs.dstart_nonneg hs.dstart_lt
  rw [← circRead_stored (queue_eq hs.toInBuffer).symm
    (show (total before).toNat + node.size.toNat ≤ (used s).toNat by omega)]
  apply circRead_congr
  intro i _
  rw [hdata, hmid, Int.toNat_of_nonneg hbefore]
  exact circ_congr ((Int.mod_modEq _ _).symm.add_right _)

/-- The packet in the middle is sent, if there is a free entry for it. -/
theorem Window.sendNode_eq (hs : Window s) {before after : List PackNode}
    {node : PackNode} (hnodes : s.nodes = before ++ node :: after)
    (clock : Timespec) :
    s.sendNode clock before.length node =
      (s.packtimes.findIdx? fun slot => slot.on = 0).map fun slot =>
        ({ bsn := node.seqnum
           datagram := datagram node.seqnum
             ((s.outbox.queue.drop (total before).toNat).take
               node.size.toNat) },
          { s with
            packtimes := s.packtimes.set slot
              { bsn := node.seqnum, on := 1, timestart := clock }
            nodes := marked before node 1 after }) := by
  obtain ⟨first, htiles⟩ := hs.tiles
  have hmem : node ∈ s.nodes := by simp [hnodes]
  have hsize := htiles.size_bounds node hmem
  obtain ⟨bytes, hbytes⟩ := packetBytes_isSome s.cirbuffer
    (htiles.data_bounds hs.dstart_nonneg hs.dstart_lt node hmem) hsize
  have hne := (hs.seqnum_ne hnodes).1
  rw [hs.bytes_eq hnodes, ← packetBytes_circRead hbytes, CBuffer.sendNode,
    hnodes]
  dsimp only
  rw [requestSize_mid hne rfl]
  dsimp only
  rw [requestData_mid hne rfl, hbytes]
  simp only [Option.map_some, Option.bind_some, modify_marked]
  rw [if_pos (by omega)]

theorem outbox_mark (s : CBuffer) (packtimes : List RttPack)
    (nodes : List PackNode) :
    CBuffer.outbox { s with packtimes := packtimes, nodes := nodes } =
      { s.outbox with
        packtimes := packtimes
        packets := nodes.map PackNode.packet } := by
  simp only [CBuffer.outbox]
  rfl

theorem Window.foldlM_sendAt (clock : ℕ → Timespec) {after : List PackNode} :
    ∀ {s : CBuffer} {before : List PackNode} (sents : List Sent), Window s →
      s.nodes = before ++ after →
      ((List.range' before.length after.length).foldlM
          (CBuffer.sendAt clock) (sents, s)).map (Prod.map id CBuffer.outbox) =
        (Outbox.sendFrom clock before.length
          (s.outbox.queue.drop (total before).toNat) s.packtimes
          (after.map PackNode.packet)).map fun (new, packtimes, packets) =>
            (sents ++ new,
              { s.outbox with
                packtimes := packtimes
                packets := before.map PackNode.packet ++ packets }) := by
  induction after with
  | nil =>
      intro s before sents hs hnodes
      rw [List.append_nil] at hnodes
      simp only [List.length_nil, List.range'_zero, List.foldlM_nil,
        List.map_nil, Outbox.sendFrom, Option.pure_def, Option.map_some,
        Prod.map_apply, id_eq, List.append_nil, ← hnodes]
      exact congrArg _ (congrArg _ (outbox_mark s s.packtimes s.nodes))
  | cons node after ih =>
      intro s before sents hs hnodes
      have hlength : (before ++ [node]).length = before.length + 1 :=
        List.length_append
      have hcurrent : s.nodes[before.length]? = some node := by
        rw [hnodes, List.getElem?_append_right le_rfl, Nat.sub_self]
        rfl
      have hsize := hs.loose.sizes node (by simp [hnodes])
      have hrest : (s.outbox.queue.drop (total before).toNat).drop
          node.size.toNat = s.outbox.queue.drop (total (before ++ [node])).toNat
          := by
        have hbefore : 0 ≤ total before := total_nonneg fun other hother =>
          hs.loose.sizes other (by simp [hnodes, hother])
        rw [List.drop_drop, total_append, total_cons, total_nil]
        congr 1
        omega
      rw [List.length_cons, List.range'_succ, List.foldlM_cons,
        Option.bind_eq_bind, CBuffer.sendAt, hcurrent, List.map_cons,
        Outbox.sendFrom]
      dsimp only
      by_cases hack : node.ack > 0
      · have hih := ih sents hs (show s.nodes = (before ++ [node]) ++ after by
          rw [hnodes, List.append_assoc]; rfl)
        rw [hlength, ← hrest] at hih
        rw [if_pos hack, Option.bind_some, hih,
          if_pos (show node.packet.ack > 0 from hack), Option.map_map]
        apply congrArg (Option.map · _)
        funext result
        obtain ⟨new, packtimes, packets⟩ := result
        simp only [Function.comp_apply, List.map_append, List.append_assoc]
        rfl
      · rw [if_neg hack, if_neg (show ¬ node.packet.ack > 0 from hack),
          hs.sendNode_eq hnodes]
        cases hslot : s.packtimes.findIdx? fun slot => slot.on = 0 with
        | none => rfl
        | some slot =>
            have hsend : Transmits s _ before node after slot
                (clock before.length)
                { s with
                  packtimes := s.packtimes.set slot
                    { bsn := node.seqnum, on := 1
                      timestart := clock before.length }
                  nodes := marked before node 1 after } :=
              ⟨hnodes, hack, hslot, rfl, rfl⟩
            have hih := ih (sents ++ [{
              bsn := node.seqnum
              datagram := datagram node.seqnum
                ((s.outbox.queue.drop (total before).toNat).take
                  node.size.toNat) }]) (hsend.window hs)
              (show marked before node 1 after =
                (before ++ [{ node with ack := 1 }]) ++ after by
                rw [marked, List.append_assoc]; rfl)
            have htotal : total (before ++ [{ node with ack := 1 }]) =
                total (before ++ [node]) := by
              simp only [total_append, total_cons]
            rw [outbox_mark s (s.packtimes.set slot _) (marked before node 1 after),
              List.length_append, List.length_singleton, htotal] at hih
            simp only [Outbox.queue] at hih hrest ⊢
            rw [← hrest] at hih
            rw [Option.map_some, Option.bind_some, Option.map_some,
              Option.bind_some]
            refine Eq.trans hih ?_
            rw [Option.map_map]
            apply congrArg (Option.map · _)
            funext result
            obtain ⟨new, packtimes, packets⟩ := result
            simp only [Function.comp_apply, List.map_append, List.append_assoc]
            rfl

theorem Window.map_sendWindow (hs : Window s) (clock : ℕ → Timespec) :
    (s.sendWindow clock).map (Prod.map id CBuffer.outbox) =
      s.outbox.sendWindow clock := by
  have hall := @Window.foldlM_sendAt clock s.nodes s [] [] hs rfl
  rw [CBuffer.sendWindow, Outbox.sendWindow, List.range_eq_range']
  refine Eq.trans hall ?_
  simp only [total_nil, Int.toNat_zero, List.drop_zero, List.length_nil,
    List.map_nil, List.nil_append]
  rfl

/-! ## recvACK and timerExpire -/

theorem map_markAcked (num : ℤ) (nodes : List PackNode) :
    (CBuffer.markAcked num nodes).map (List.map PackNode.packet) =
      Outbox.markAcked num (nodes.map PackNode.packet) := by
  induction nodes with
  | nil => rfl
  | cons node nodes ih =>
      rw [CBuffer.markAcked, List.map_cons, Outbox.markAcked, ← ih,
        Option.map_map]
      by_cases hnum : node.seqnum = num
      · rw [if_pos hnum, if_pos (show node.packet.seqnum = num from hnum)]
        rfl
      · rw [if_neg hnum, if_neg (show ¬ node.packet.seqnum = num from hnum),
          Option.map_map]
        rfl

theorem estimate_sampled (s : CBuffer) (delta : ℚ) :
    (s.timeComps delta).estimate = Outbox.sampled s.estimate delta :=
  estimate_timeComps rfl

/-- A packet that is marked is no obstacle to `checkWindow`. -/
theorem Window.loose_marked (hs : Window s) {mid : CBuffer} {num : ℤ}
    (hmark : CBuffer.markAcked num s.nodes = some mid.nodes)
    (hsame : SameBytes s mid) : Loose mid := by
  obtain ⟨before, node, after, hnodes, -, hmarked⟩ := markAcked_eq_some hmark
  have hshape : shape mid.nodes = shape s.nodes := by
    rw [hmarked, hnodes, shape_marked]
  obtain ⟨⟨first, htiles⟩, htotal⟩ := hs.tiles_marked hsame hshape
  exact ⟨hsame.inBuffer hs.toInBuffer, htiles.size_bounds, htotal.le⟩

theorem Window.map_recvACK (hs : Window s) (num : ℤ) (stop : Timespec) :
    (s.recvACK num stop).map
        (Prod.map id (Prod.map (List.map PackNode.seqnum) CBuffer.outbox)) =
      s.outbox.recvACK num stop := by
  rw [CBuffer.recvACK, Outbox.recvACK, Option.map_bind]
  apply congrArg
  funext i
  have hestimate := estimate_sampled s
    (CBuffer.elapsed ((s.packtimes[i]?.map RttPack.timestart).getD ⟨0, 0⟩) stop)
  obtain ⟨srtt, rttvar, rto, htimes⟩ := timeComps_eq s
    (CBuffer.elapsed ((s.packtimes[i]?.map RttPack.timestart).getD ⟨0, 0⟩) stop)
  rw [htimes] at hestimate
  have houtbox : ∀ nodes, CBuffer.outbox
      { s with
        nodes := nodes
        packtimes := s.packtimes.modify i fun slot => { slot with on := 0 }
        srtt := srtt
        rttvar := rttvar
        rto := rto } =
      { s.outbox with
        packets := nodes.map PackNode.packet
        packtimes := s.outbox.packtimes.modify i fun slot =>
          { slot with on := 0 }
        estimate := Outbox.sampled s.outbox.estimate (CBuffer.elapsed
          ((s.outbox.packtimes[i]?.map RttPack.timestart).getD ⟨0, 0⟩)
          stop) } := by
    intro nodes
    simp only [CBuffer.outbox]
    rw [← hestimate]
    rfl
  have hpackets : Outbox.markAcked num s.outbox.packets =
      (CBuffer.markAcked num s.nodes).map (List.map PackNode.packet) :=
    (map_markAcked num s.nodes).symm
  rw [Function.comp_apply]
  dsimp only
  rw [htimes, hpackets]
  dsimp only
  cases hmark : CBuffer.markAcked num s.nodes with
  | none =>
      simp only [Option.map_none, Option.map_some, Prod.map_apply, id_eq,
        List.map_nil, houtbox]
      rfl
  | some nodes =>
      have hloose : Loose { s with
          nodes := nodes
          packtimes := s.packtimes.modify i fun slot => { slot with on := 0 }
          srtt := srtt
          rttvar := rttvar
          rto := rto } := hs.loose_marked hmark ⟨rfl, rfl, rfl, rfl, rfl⟩
      have hcheck := hloose.checkWindow
      rw [houtbox] at hcheck
      simp only [Option.map_some]
      rw [← hcheck, Option.map_map, Option.map_map]
      rfl

theorem outbox_timerExpire (s : CBuffer) (bsn : ℤ) :
    (s.timerExpire bsn).outbox = s.outbox.timerExpire bsn := by
  have hpacket : PackNode.packet ∘ (fun current : PackNode =>
      if current.seqnum = bsn then { current with ack := 0 } else current) =
      (fun packet : Packet =>
        if packet.seqnum = bsn then { packet with ack := 0 } else packet) ∘
        PackNode.packet := by
    funext node
    rw [Function.comp_apply, Function.comp_apply]
    by_cases hbsn : node.seqnum = bsn
    · rw [if_pos hbsn, if_pos (show node.packet.seqnum = bsn from hbsn)]
      rfl
    · rw [if_neg hbsn, if_neg (show ¬ node.packet.seqnum = bsn from hbsn)]
  simp only [CBuffer.timerExpire, Outbox.timerExpire, CBuffer.outbox,
    List.map_map, hpacket]
  rfl

end

/-! ## Any sequence of calls -/

/-- The queue of the bytes in the buffer, as long as the window is in order. -/
def queued : Abstraction bufferLevel queueLevel where
  toFun := CBuffer.outbox
  invariant := Window
  invariant_start := window_start
  map_start := outbox_start
  invariant_op := by
    intro s s' c answer hs hop
    cases c with
    | addData chunk =>
        obtain ⟨⟨result, freed, mid⟩, hadd, heq⟩ := Option.map_eq_some_iff.1 hop
        cases heq
        exact (addData_added hs hadd).2.2
    | sendWindow clock =>
        obtain ⟨⟨sents, mid⟩, hsend, heq⟩ := Option.map_eq_some_iff.1 hop
        cases heq
        exact (sendWindow_transmissions hs hsend).2
    | recvACK num stop =>
        obtain ⟨⟨result, freed, mid⟩, hrecv, heq⟩ := Option.map_eq_some_iff.1 hop
        cases heq
        exact (recvACK_acked hs hrecv).2
    | timerExpire bsn =>
        cases hop
        exact timerExpire_window hs bsn
  map_op := by
    intro s c hs
    cases c with
    | addData chunk =>
        simp only [bufferLevel, queueLevel, ← hs.map_addData, Option.map_map]
        rfl
    | sendWindow clock =>
        simp only [bufferLevel, queueLevel, ← hs.map_sendWindow, Option.map_map]
        rfl
    | recvACK num stop =>
        simp only [bufferLevel, queueLevel, ← hs.map_recvACK, Option.map_map]
        rfl
    | timerExpire bsn =>
        simp only [bufferLevel, queueLevel, ← outbox_timerExpire]
        rfl

/-- Over any sequence of calls the circular buffer gives the results of the
queue, frees and sends what the queue does, and holds what it holds at the end.
A call does not return on one side exactly if it does not on the other. -/
theorem bufferLevel_run (calls : List Call) :
    (bufferLevel.run CBuffer.start calls).map (Prod.map id CBuffer.outbox) =
      queueLevel.run Outbox.start calls :=
  queued.map_run calls

end UdpTransfer.Sender
