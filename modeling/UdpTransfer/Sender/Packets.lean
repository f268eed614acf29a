import UdpTransfer.Sender.Session

/-!
# Retransmissions are identical

A packet keeps its bytes for as long as it is listed: `addData` writes only
where no stored byte lies, and every listed packet lies among the stored bytes.
So what a session recorded when it listed a packet is what each transmission
of the packet carries.
-/

namespace UdpTransfer.Sender

open UdpTransfer.Memory
open UdpTransfer.Runs
open UdpTransfer.Wire
open CBuffer

/-- The payload recorded for packet `num`; the first packet has number 1. -/
def packet (packets : List (List UInt8)) (num : ℤ) : Option (List UInt8) :=
  if 1 ≤ num then packets[(num - 1).toNat]? else none

theorem packet_append {packets : List (List UInt8)} {num : ℤ}
    {bytes : List UInt8} (new : List (List UInt8))
    (hpacket : packet packets num = some bytes) :
    packet (packets ++ new) num = some bytes := by
  rw [packet] at hpacket ⊢
  split at hpacket
  · rename_i hnum
    have hlt := (List.getElem?_eq_some_iff.1 hpacket).1
    rw [if_pos hnum, List.getElem?_append_left hlt, hpacket]
  · cases hpacket

theorem packet_append_right {packets new : List (List UInt8)} {i : ℕ}
    (hi : i < new.length) :
    packet (packets ++ new) (packets.length + 1 + i) = some new[i] := by
  have hplace : ((packets.length : ℤ) + 1 + i - 1).toNat =
      packets.length + i := by
    omega
  rw [packet, if_pos (by omega), hplace,
    List.getElem?_append_right (by omega), Nat.add_sub_cancel_left,
    List.getElem?_eq_getElem hi]

/-- Each listed packet still has the bytes it was recorded with. -/
def Listed (packets : List (List UInt8)) (s : CBuffer) : Prop :=
  ∀ node ∈ s.nodes, packet packets node.seqnum = some (payload s node)

theorem exists_of_shape {nodes nodes' : List PackNode}
    (hshape : shape nodes' = shape nodes) {node' : PackNode}
    (hnode : node' ∈ nodes') :
    ∃ node ∈ nodes, node.seqnum = node'.seqnum ∧ node.data = node'.data ∧
      node.size = node'.size := by
  have hmem : (node'.seqnum, node'.data, node'.size) ∈ shape nodes' :=
    List.mem_map_of_mem hnode
  rw [hshape, shape, List.mem_map] at hmem
  obtain ⟨node, hnode, heq⟩ := hmem
  simp only [Prod.mk.injEq] at heq
  exact ⟨node, hnode, heq⟩

theorem Listed.mark {packets : List (List UInt8)} {s s' : CBuffer}
    (hlisted : Listed packets s) (hshape : shape s'.nodes = shape s.nodes)
    (hcirbuffer : s'.cirbuffer = s.cirbuffer) : Listed packets s' := by
  intro node' hnode'
  obtain ⟨node, hnode, hseqnum, hdata, hsize⟩ := exists_of_shape hshape hnode'
  rw [← hseqnum, hlisted node hnode, payload, payload, hcirbuffer, hdata,
    hsize]

/-- Where a packet is listed, storing a chunk leaves its bytes alone. -/
theorem Stored.payload_eq {s mid : CBuffer} {data : List UInt8}
    (hstored : Stored s data mid) (hs : Window s) {node : PackNode}
    (hnode : node ∈ s.nodes) : payload mid node = payload s node := by
  obtain ⟨first, htiles⟩ := hs.tiles
  obtain ⟨offset, hlow, hhigh, hmod⟩ := htiles.offset node hnode
  have htotal := hs.total_eq
  have hroom := hstored.room
  have hend := dend_modEq hs.toInBuffer
  apply circRead_congr
  intro i hi
  rw [hstored.write.outside]
  intro j hj hclash
  have hplace : s.dstart + offset + i ≡ s.dstart + used s + j
      [ZMOD 64000] :=
    ((hmod.symm.add_right _).trans hclash).trans (hend.add_right _)
  obtain ⟨k, hk⟩ := Int.modEq_iff_dvd.1 hplace
  omega

theorem Listed.store {packets : List (List UInt8)} {s mid : CBuffer}
    {data : List UInt8} (hlisted : Listed packets s) (hs : Window s)
    (hstored : Stored s data mid) : Listed packets mid := by
  intro node hnode
  rw [hstored.nodes_eq] at hnode
  rw [hstored.payload_eq hs hnode]
  exact hlisted node hnode

/-- Of the packets listed after `checkWindow`, those with new numbers are the
ones it cut. -/
theorem Rewindowed.created_eq {s mid s' : CBuffer}
    {freed kept new : List PackNode}
    (hrewind : Rewindowed mid freed kept new s')
    (htiles : ∃ first data, Tiles mid.dstart first mid.nodes data mid.packseq)
    (hpackseq : mid.packseq = s.packseq) :
    created s s' = new.map (payload s') := by
  obtain ⟨first, data, htiles⟩ := htiles
  have hkept : kept.filter (fun node => s.packseq ≤ node.seqnum) = [] := by
    rw [List.filter_eq_nil_iff]
    intro node hnode
    have := htiles.seqnum_bounds node (by simp [hrewind.nodes_eq, hnode])
    rw [decide_eq_true_eq]
    omega
  have hnew : new.filter (fun node => s.packseq ≤ node.seqnum) = new := by
    rw [List.filter_eq_self]
    intro node hnode
    have := hrewind.new_tiles.seqnum_bounds node hnode
    rw [decide_eq_true_eq]
    omega
  rw [created, hrewind.nodes_eq', List.filter_append, hkept, hnew,
    List.nil_append]

/-- What a session has recorded fits what the buffer holds and what was
sent. -/
structure Recorded (t : Session) : Prop where
  count : (t.packets.length : ℤ) + 1 = t.cbuffer.packseq
  packseq_le : t.cbuffer.packseq ≤ 2147483647
  listed : Listed t.packets t.cbuffer
  sent : ∀ sent ∈ t.sent, ∃ bytes, packet t.packets sent.bsn = some bytes ∧
    sent.datagram = datagram sent.bsn bytes

/-- `checkWindow` records the packets that it lists. -/
theorem Listed.rewind {packets : List (List UInt8)} {mid s' : CBuffer}
    {freed kept new : List PackNode} (hlisted : Listed packets mid)
    (hcount : (packets.length : ℤ) + 1 = mid.packseq)
    (hrewind : Rewindowed mid freed kept new s') :
    Listed (packets ++ new.map (payload s')) s' ∧
      ((packets ++ new.map (payload s')).length : ℤ) + 1 = s'.packseq := by
  constructor
  · intro node hnode
    rw [hrewind.nodes_eq', List.mem_append] at hnode
    rcases hnode with hnode | hnode
    · have hold := hlisted node (by simp [hrewind.nodes_eq, hnode])
      rw [payload, ← hrewind.cirbuffer_eq] at hold
      exact packet_append _ hold
    · obtain ⟨i, hi, rfl⟩ := List.getElem_of_mem hnode
      rw [hrewind.new_tiles.getElem_seqnum i hi, ← hcount,
        packet_append_right (by simpa using hi), List.getElem_map]
  · rw [hrewind.new_tiles.seq_eq, ← hcount, List.length_append,
      List.length_map]
    push_cast
    omega

theorem Listed.transmissions {packets : List (List UInt8)} {s s' : CBuffer}
    {sents : List Sent} (hlisted : Listed packets s)
    (htrans : Transmissions s sents s') :
    Listed packets s' ∧ s'.packseq = s.packseq ∧
      ∀ sent ∈ sents, ∃ bytes, packet packets sent.bsn = some bytes ∧
        sent.datagram = datagram sent.bsn bytes := by
  induction htrans with
  | nil => exact ⟨hlisted, rfl, by simp⟩
  | snoc _ _ hsend ih =>
      obtain ⟨hlisted', hpackseq, hsents⟩ := ih
      have hstate := hsend.state_eq
      refine ⟨hlisted'.mark ?_ (by rw [hstate]), by rw [hstate, ← hpackseq],
        ?_⟩
      · rw [hstate, hsend.nodes_eq, shape_marked]
      · intro sent hsent
        rw [List.mem_append, List.mem_singleton] at hsent
        rcases hsent with hsent | rfl
        · exact hsents sent hsent
        · rw [hsend.sent_eq]
          exact ⟨_, hlisted' _ (by simp [hsend.nodes_eq]), rfl⟩

/-- A call that ends in `checkWindow` keeps the record, if it gets there with
the bytes of every listed packet unharmed. -/
theorem Recorded.rewind {t : Session} {mid s' : CBuffer}
    {freed kept new : List PackNode} (hrec : Recorded t)
    (hlisted : Listed t.packets mid)
    (hpackseq : mid.packseq = t.cbuffer.packseq)
    (htiles : ∃ first data, Tiles mid.dstart first mid.nodes data mid.packseq)
    (hrewind : Rewindowed mid freed kept new s') (accepted : List UInt8)
    (nums : List ℤ) :
    Recorded { t with
      cbuffer := s'
      accepted := accepted
      packets := t.packets ++ created t.cbuffer s'
      freed := nums } := by
  have hnew := hrewind.created_eq (s := t.cbuffer) htiles hpackseq
  obtain ⟨hlisted', hcount'⟩ :=
    hlisted.rewind (hrec.count.trans hpackseq.symm) hrewind
  have hbound := hrewind.packseq_le (hpackseq.trans_le hrec.packseq_le)
  refine ⟨?_, hbound, ?_, ?_⟩
  · rw [hnew]
    exact hcount'
  · rw [hnew]
    exact hlisted'
  · intro sent hsent
    obtain ⟨bytes, hpacket, heq⟩ := hrec.sent sent hsent
    exact ⟨bytes, packet_append _ hpacket, heq⟩

theorem Recorded.addData {t : Session} {chunk : List UInt8} {result : ℤ}
    {s : CBuffer} (hrec : Recorded t) (hs : Window t.cbuffer)
    (hadded : Added t.cbuffer chunk result s) (accepted : List UInt8) :
    Recorded { t with
      cbuffer := s
      accepted := accepted
      packets := t.packets ++ created t.cbuffer s } := by
  cases hadded with
  | accepted mid s new hstored hrewind =>
      obtain ⟨first, htiles⟩ := hstored.tiles hs
      exact hrec.rewind (hrec.listed.store hs hstored) hstored.packseq_eq
        ⟨first, _, htiles⟩ hrewind accepted t.freed
  | rejected mid s _ hmid hrewind =>
      have htouched := touched_spaceLeft t.cbuffer
      rw [← hmid] at htouched
      exact hrec.rewind
        (hrec.listed.mark (by rw [htouched.nodes_eq]) htouched.cirbuffer_eq)
        htouched.packseq_eq (htouched.window hs).tiled hrewind accepted t.freed

/-- Where the list has not changed, nothing new is listed. -/
theorem Window.created_eq_nil {s s' : CBuffer} (hs : Window s)
    (hnodes : s'.nodes = s.nodes) : created s s' = [] := by
  obtain ⟨first, data, htiles⟩ := hs.tiled
  rw [created, hnodes, List.map_eq_nil_iff, List.filter_eq_nil_iff]
  intro node hnode
  have := htiles.seqnum_bounds node hnode
  rw [decide_eq_true_eq]
  omega

theorem Recorded.recvACK {t : Session} {num result : ℤ}
    {freed : List PackNode} {s : CBuffer} (hrec : Recorded t)
    (hs : Window t.cbuffer) (hacked : Acked t.cbuffer num result freed s) :
    Recorded { t with
      cbuffer := s
      packets := t.packets ++ created t.cbuffer s
      freed := t.freed ++ freed.map PackNode.seqnum } := by
  cases hacked with
  | absent i s _ _ hsame hnodes _ =>
      rw [hs.created_eq_nil hnodes, List.append_nil]
      exact ⟨hrec.count.trans hsame.packseq_eq.symm,
        hsame.packseq_eq.trans_le hrec.packseq_le,
        hrec.listed.mark (by rw [hnodes]) hsame.cirbuffer_eq, hrec.sent⟩
  | listed i mid s before after node freed kept new _ hnodes _ hsame hmid _
      hrewind =>
      have hshape : shape mid.nodes = shape t.cbuffer.nodes := by
        rw [hmid, hnodes, shape_marked]
      exact hrec.rewind (hrec.listed.mark hshape hsame.cirbuffer_eq)
        hsame.packseq_eq (hs.tiled_congr hsame hshape) hrewind t.accepted _

theorem Recorded.called {t t' : Session} {c : Call} (hrec : Recorded t)
    (hs : Window t.cbuffer) (hcalled : Called t c t') : Recorded t' := by
  cases hcalled with
  | addData chunk result s hadded => exact hrec.addData hs hadded _
  | sendWindow clock sents s htrans =>
      obtain ⟨hlisted, hpackseq, hsents⟩ := hrec.listed.transmissions htrans
      refine ⟨hrec.count.trans hpackseq.symm,
        hpackseq.trans_le hrec.packseq_le, hlisted, ?_⟩
      intro sent hsent
      rcases List.mem_append.1 hsent with hsent | hsent
      · exact hrec.sent sent hsent
      · exact hsents sent hsent
  | recvACK num stop result freed s hacked => exact hrec.recvACK hs hacked
  | timerExpire bsn =>
      exact ⟨hrec.count, hrec.packseq_le,
        hrec.listed.mark (shape_timerExpire _ _) rfl, hrec.sent⟩

theorem recorded_start : Recorded Session.start :=
  ⟨rfl, by decide, by simp [Listed, Session.start, CBuffer.start],
    by simp [Session.start]⟩

theorem recorded_reachable {guard : Session → Call → Prop} {t : Session}
    (hreach : (sender.restrict guard).Reachable t) : Recorded t :=
  session_invariant recorded_start
    (fun _ _ _ _ hs _ hcalled hrec => hrec.called hs hcalled) hreach

theorem packet_isSome {packets : List (List UInt8)} {num : ℤ}
    {bytes : List UInt8} (hpacket : packet packets num = some bytes) :
    1 ≤ num ∧ num ≤ packets.length := by
  rw [packet] at hpacket
  split at hpacket
  · have := (List.getElem?_eq_some_iff.1 hpacket).1
    omega
  · cases hpacket

/-- Two datagrams with the same packet number are the same. -/
theorem retransmitted_eq (t : Session) (hreach : sender.Reachable t)
    (first second : Sent) (hfirst : first ∈ t.sent) (hsecond : second ∈ t.sent)
    (hnum : first.datagram.packnum = second.datagram.packnum) :
    first.datagram.payload.length = second.datagram.payload.length ∧
      first.datagram.payload = second.datagram.payload ∧
      first.datagram.crc32 = second.datagram.crc32 := by
  have hrec := recorded_reachable hreach.restrict_true
  obtain ⟨bytes, hbytes, heq⟩ := hrec.sent first hfirst
  obtain ⟨bytes', hbytes', heq'⟩ := hrec.sent second hsecond
  have hcount := hrec.count
  have hbound := hrec.packseq_le
  have hrange := packet_isSome hbytes
  have hrange' := packet_isSome hbytes'
  -- the number travels as 32 bits, and no session reaches a number past them
  have hbsn : first.bsn = second.bsn := by
    have hseqnum := congrArg seqnumOf hnum
    rw [heq, heq'] at hseqnum
    simp only [datagram] at hseqnum
    rwa [seqnumOf_ofInt (by omega) (by omega),
      seqnumOf_ofInt (by omega) (by omega)] at hseqnum
  rw [hbsn, hbytes'] at hbytes
  cases hbytes
  rw [heq, heq']
  exact ⟨rfl, rfl, rfl⟩

/-- A session that has added one byte, while its packet goes out and times
out. -/
def oneByteSent (slot : RttPack) (ack : ℤ) (sent : List Sent) : Session :=
  { oneByte with
    cbuffer := { oneByte.cbuffer with
      packtimes := slot :: CBuffer.start.packtimes.tail
      nodes := [{ seqnum := 1, data := 0, size := 1, ack := ack }] }
    sent := sent }

theorem oneByteSent_sendWindow (slot : RttPack) (sent : List Sent)
    (hoff : slot.on = 0) :
    (oneByteSent slot 0 sent).call (.sendWindow fun _ => ⟨0, 0⟩) =
      some (oneByteSent { bsn := 1, on := 1, timestart := ⟨0, 0⟩ } 1
        (sent ++ [{ bsn := 1, datagram := datagram 1 [7] }])) := by
  have hread : Memory.read oneByte.cbuffer.cirbuffer 0 1 = [7] := by decide
  simp [Session.call, CBuffer.sendWindow, oneByteSent, sendAt, sendNode,
    requestSize, requestData, packetBytes, memcpyOut, hoff, hread,
    List.findIdx?_cons]

/-- The session in which the packet is sent a second time. -/
def oneByteTwice : Session :=
  oneByteSent { bsn := 1, on := 1, timestart := ⟨0, 0⟩ } 1
    [{ bsn := 1, datagram := datagram 1 [7] },
      { bsn := 1, datagram := datagram 1 [7] }]

theorem oneByteTwice_reachable : sender.Reachable oneByteTwice := by
  have hadded : sender.Reachable (oneByteSent ⟨0, 0, ⟨0, 0⟩⟩ 0 []) :=
    oneByte_reachable
  have hsent := hadded.step (oneByteSent_sendWindow _ _ rfl)
  have hexpired : sender.Reachable (oneByteSent ⟨1, 0, ⟨0, 0⟩⟩ 0
      [{ bsn := 1, datagram := datagram 1 [7] }]) :=
    hsent.step (l := .timerExpire 1) rfl
  exact hexpired.step (oneByteSent_sendWindow _ _ rfl)

theorem retransmitted_eq_oneByte :
    (datagram 1 [7]).payload.length = (datagram 1 [7]).payload.length ∧
      (datagram 1 [7]).payload = (datagram 1 [7]).payload ∧
      (datagram 1 [7]).crc32 = (datagram 1 [7]).crc32 :=
  retransmitted_eq oneByteTwice oneByteTwice_reachable
    { bsn := 1, datagram := datagram 1 [7] }
    { bsn := 1, datagram := datagram 1 [7] }
    (by simp [oneByteTwice, oneByteSent])
    (by simp [oneByteTwice, oneByteSent]) rfl

end UdpTransfer.Sender
