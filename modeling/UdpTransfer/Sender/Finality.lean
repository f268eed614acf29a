import UdpTransfer.Sender.Packets

/-!
# Acknowledged packets

Once `recvACK` has marked a packet it stays marked, until it is freed, and is
not sent again, unless an expiration notice for it is still on its way:
`timerExpire` clears the mark of every listed packet with the number it is
given, acknowledged or not.
-/

namespace UdpTransfer.Sender

open UdpTransfer.Memory
open UdpTransfer.Runs
open UdpTransfer.Wire
open CBuffer

namespace Session

/-- The calls one after the other. -/
def run (t : Session) (calls : List Call) : Option Session :=
  calls.foldlM Session.call t

end Session

/-! ## What a call does to the marks -/

/-- Where a listed packet comes from, and how it got its mark. -/
inductive Origin (s : CBuffer) (c : Call) (node' : PackNode) : Prop where
  | created : s.packseq ≤ node'.seqnum → node'.ack = 0 → Origin s c node'
  | kept (node : PackNode) : node ∈ s.nodes → node.seqnum = node'.seqnum →
      node'.ack = node.ack → Origin s c node'
  | sent (node : PackNode) : node ∈ s.nodes → node.seqnum = node'.seqnum →
      ¬ node.ack > 0 → node'.ack = 1 → Origin s c node'
  | acked (node : PackNode) (stop : Timespec) : node ∈ s.nodes →
      node.seqnum = node'.seqnum → c = .recvACK node'.seqnum stop →
      node'.ack = 2 → Origin s c node'
  | expired (node : PackNode) : node ∈ s.nodes →
      node.seqnum = node'.seqnum → c = .timerExpire node'.seqnum →
      node'.ack = 0 → Origin s c node'

theorem Origin.refl {s : CBuffer} {c : Call} {node : PackNode}
    (hnode : node ∈ s.nodes) : Origin s c node :=
  .kept node hnode rfl rfl

theorem Added.origin {s s' : CBuffer} {data : List UInt8} {result : ℤ}
    {c : Call} (hadded : Added s data result s') {node : PackNode}
    (hnode : node ∈ s'.nodes) : Origin s c node := by
  cases hadded with
  | accepted mid s' new hstored hrewind =>
      rw [hrewind.nodes_eq', List.mem_append] at hnode
      rcases hnode with hnode | hnode
      · exact .refl hnode
      · refine .created ?_ (hrewind.new_ack node hnode)
        rw [← hstored.packseq_eq]
        exact (hrewind.new_tiles.seqnum_bounds node hnode).1
  | rejected mid s' _ _ hrewind =>
      rw [hrewind.nodes_eq', List.append_nil] at hnode
      exact .refl hnode

theorem Acked.origin {s s' : CBuffer} {num result : ℤ} {stop : Timespec}
    {freed : List PackNode} (hacked : Acked s num result freed s')
    {node : PackNode} (hnode : node ∈ s'.nodes) :
    Origin s (.recvACK num stop) node := by
  cases hacked with
  | absent i s' _ _ _ hnodes _ =>
      rw [hnodes] at hnode
      exact .refl hnode
  | listed i mid s' before after node' freed kept new _ hnodes hnum hsame
      hmid _ hrewind =>
      rw [hrewind.nodes_eq', List.mem_append] at hnode
      rcases hnode with hnode | hnode
      · have hmem : node ∈ marked before node' 2 after := by
          rw [← hmid, hrewind.nodes_eq]
          exact List.mem_append_right freed hnode
        simp only [marked, List.mem_append, List.mem_cons] at hmem
        rcases hmem with hmem | rfl | hmem
        · exact .refl (by simp [hnodes, hmem])
        · exact .acked node' stop (by simp [hnodes]) rfl (by rw [hnum]) rfl
        · exact .refl (by simp [hnodes, hmem])
      · refine .created ?_ (hrewind.new_ack node hnode)
        rw [← hsame.packseq_eq]
        exact (hrewind.new_tiles.seqnum_bounds node hnode).1

/-- Sending marks packets that are not under way, and no others. -/
theorem Transmissions.marks {s s' : CBuffer} {sents : List Sent}
    (htrans : Transmissions s sents s') :
    ∀ node' ∈ s'.nodes, ∃ node ∈ s.nodes, node.seqnum = node'.seqnum ∧
      (node'.ack = node.ack ∨ ¬ node.ack > 0 ∧ node'.ack = 1) := by
  induction htrans with
  | nil => exact fun node hnode => ⟨node, hnode, rfl, .inl rfl⟩
  | @snoc sents mid s'' sent before current after slot clock _ _ hsend ih =>
      intro node' hnode'
      have hnodes := hsend.nodes_eq
      rw [hsend.state_eq] at hnode'
      simp only [marked, List.mem_append, List.mem_cons] at hnode'
      rcases hnode' with hnode' | rfl | hnode'
      · exact ih node' (by simp [hnodes, hnode'])
      · obtain ⟨node, hnode, hseqnum, hack⟩ := ih current (by simp [hnodes])
        refine ⟨node, hnode, hseqnum, .inr ⟨?_, rfl⟩⟩
        have hnot := hsend.not_sent
        omega
      · exact ih node' (by simp [hnodes, hnode'])

/-- Every node of the list after a call has one of the five origins. -/
theorem Called.origin {t t' : Session} {c : Call} (hcalled : Called t c t')
    {node : PackNode} (hnode : node ∈ t'.cbuffer.nodes) :
    Origin t.cbuffer c node := by
  cases hcalled with
  | addData chunk result s hadded => exact hadded.origin hnode
  | sendWindow clock sents s htrans =>
      obtain ⟨node', hmem, hseqnum, hack | ⟨hnot, hack⟩⟩ :=
        htrans.marks node hnode
      · exact .kept node' hmem hseqnum hack
      · exact .sent node' hmem hseqnum hnot hack
  | recvACK num stop result freed s hacked => exact hacked.origin hnode
  | timerExpire bsn =>
      obtain ⟨node', hmem, rfl⟩ := List.mem_map.1 hnode
      split
      · rename_i hbsn
        exact .expired node' hmem rfl (by rw [hbsn]) rfl
      · exact .refl hmem

theorem Called.packseq_le {t t' : Session} {c : Call}
    (hcalled : Called t c t') :
    t.cbuffer.packseq ≤ t'.cbuffer.packseq := by
  cases hcalled with
  | addData chunk result s hadded =>
      cases hadded with
      | accepted mid s' new hstored hrewind =>
          have hseq := hrewind.new_tiles.seq_eq
          change t.cbuffer.packseq ≤ s.packseq
          rw [← hstored.packseq_eq]
          omega
      | rejected mid s' _ hmid hrewind =>
          have hseq := hrewind.new_tiles.seq_eq
          have htouched := touched_spaceLeft t.cbuffer
          rw [← hmid] at htouched
          change t.cbuffer.packseq ≤ s.packseq
          rw [← htouched.packseq_eq]
          omega
  | sendWindow clock sents s htrans =>
      exact htrans.sameBytes.1.packseq_eq.ge
  | recvACK num stop result freed s hacked =>
      cases hacked with
      | absent i s' _ _ hsame _ _ => exact hsame.packseq_eq.ge
      | listed i mid s' before after node freed kept new _ _ _ hsame _ _
          hrewind =>
          have hseq := hrewind.new_tiles.seq_eq
          change t.cbuffer.packseq ≤ s.packseq
          rw [← hsame.packseq_eq]
          omega
  | timerExpire bsn => exact le_rfl

/-! ## Finality -/

/-- What is final from `t` on: the packet keeps its mark, and `sendWindow` does
not send it again. -/
structure Final (t : Session) (num : ℤ) (t' : Session) : Prop where
  marked : ∀ node ∈ t'.cbuffer.nodes, node.seqnum = num → node.ack = 2
  not_sent : ∀ sent ∈ t'.sent.drop t.sent.length, sent.bsn ≠ num

/-- The packet is acknowledged or freed, and has not been sent since `t`. -/
structure Done (t : Session) (num : ℤ) (t' : Session) : Prop where
  window : Window t'.cbuffer
  cut : num < t'.cbuffer.packseq
  marked : ∀ node ∈ t'.cbuffer.nodes, node.seqnum = num → node.ack = 2
  sent : ∃ new, t'.sent = t.sent ++ new ∧ ∀ sent ∈ new, sent.bsn ≠ num

theorem Done.final {t t' : Session} {num : ℤ} (hdone : Done t num t') :
    Final t num t' := by
  obtain ⟨new, hsent, hnew⟩ := hdone.sent
  refine ⟨hdone.marked, ?_⟩
  rwa [hsent, List.drop_left]

/-- A packet that `sendWindow` sends was not under way. -/
theorem Transmissions.sent_unmarked {s s' : CBuffer} {sents : List Sent}
    (htrans : Transmissions s sents s') :
    ∀ sent ∈ sents, ∃ node ∈ s.nodes, node.seqnum = sent.bsn ∧
      ¬ node.ack > 0 := by
  induction htrans with
  | nil => simp
  | @snoc sents mid s'' sent before current after slot clock htrans _ hsend
      ih =>
      intro sent' hsent'
      rw [List.mem_append, List.mem_singleton] at hsent'
      rcases hsent' with hsent' | rfl
      · exact ih sent' hsent'
      · obtain ⟨node, hnode, hseqnum, hack⟩ :=
          htrans.marks current (by simp [hsend.nodes_eq])
        have hnot := hsend.not_sent
        refine ⟨node, hnode, ?_, by omega⟩
        rw [hseqnum, hsend.sent_eq]

/-- One call: the mark can be lost to an expiration notice only. -/
theorem Done.call {t t' t'' : Session} {num : ℤ} {c : Call}
    (hdone : Done t num t') (hcall : t'.call c = some t'')
    (hnotice : c = .timerExpire num →
      ∀ node ∈ t'.cbuffer.nodes, node.seqnum ≠ num) : Done t num t'' := by
  obtain ⟨hwindow, hcut, hmarked, new, hsent, hnew⟩ := hdone
  obtain ⟨hcalled, hwindow'⟩ := hwindow.called hcall
  refine ⟨hwindow', hcut.trans_le hcalled.packseq_le, ?_, ?_⟩
  · intro node' hnode' hnum
    cases hcalled.origin hnode' with
    | created hlow _ => omega
    | kept node hnode hseqnum hack =>
        rw [hack]
        exact hmarked node hnode (hseqnum.trans hnum)
    | sent node hnode hseqnum hnot _ =>
        have hack := hmarked node hnode (hseqnum.trans hnum)
        omega
    | acked node stop _ _ _ hack => exact hack
    | expired node hnode hseqnum hc _ =>
        rw [hnum] at hc hseqnum
        exact absurd hseqnum (hnotice hc node hnode)
  · cases hcalled with
    | addData chunk result s _ => exact ⟨new, hsent, hnew⟩
    | recvACK num stop result freed s _ => exact ⟨new, hsent, hnew⟩
    | timerExpire bsn => exact ⟨new, hsent, hnew⟩
    | sendWindow clock sents s htrans =>
        refine ⟨new ++ sents, by simp [hsent], ?_⟩
        intro sent hmem
        rcases List.mem_append.1 hmem with hmem | hmem
        · exact hnew sent hmem
        · intro hnum
          obtain ⟨node, hnode, hseqnum, hnot⟩ :=
            htrans.sent_unmarked sent hmem
          have hack := hmarked node hnode (hseqnum.trans hnum)
          omega

/-- When `recvACK` returns for a listed packet, that packet is done. -/
theorem done_of_recvACK {t t' : Session} {num : ℤ} {stop : Timespec}
    (hwindow : Window t.cbuffer)
    (hlisted : ∃ node ∈ t.cbuffer.nodes, node.seqnum = num)
    (hcall : t.call (.recvACK num stop) = some t') : Done t' num t' := by
  obtain ⟨hcalled, hwindow'⟩ := hwindow.called hcall
  have hcut : num < t.cbuffer.packseq := by
    obtain ⟨node, hnode, rfl⟩ := hlisted
    obtain ⟨first, htiles⟩ := hwindow.tiles
    exact (htiles.seqnum_bounds node hnode).2
  refine ⟨hwindow', hcut.trans_le hcalled.packseq_le, ?_, [], by simp, by simp⟩
  cases hcalled with
  | recvACK num stop result freed s hacked =>
      cases hacked with
      | absent i s' _ hnone _ _ _ =>
          obtain ⟨node, hnode, hnum⟩ := hlisted
          exact absurd hnum (hnone node hnode)
      | listed i mid s' before after node freed kept new _ hnodes hnum hsame
          hmid _ hrewind =>
          have hne := hwindow.seqnum_ne hnodes
          intro node' hnode' hnum'
          have hsplit : node' ∈ kept ++ new := by
            rw [← hrewind.nodes_eq']
            exact hnode'
          rcases List.mem_append.1 hsplit with hkept | hnew
          · have hmem : node' ∈ marked before node 2 after := by
              rw [← hmid, hrewind.nodes_eq]
              exact List.mem_append_right freed hkept
            simp only [marked, List.mem_append, List.mem_cons] at hmem
            rcases hmem with hmem | rfl | hmem
            · exact absurd (hnum'.trans hnum.symm) (hne.1 node' hmem)
            · rfl
            · exact absurd (hnum'.trans hnum.symm) (hne.2 node' hmem)
          · have hlow := (hrewind.new_tiles.seqnum_bounds node' hnew).1
            rw [hsame.packseq_eq] at hlow
            omega

theorem run_concat {t t'' : Session} {front : List Call} {c : Call} :
    t.run (front ++ [c]) = some t'' ↔
      ∃ t', t.run front = some t' ∧ t'.call c = some t'' := by
  rw [Session.run, List.foldlM_append, Option.bind_eq_bind,
    Option.bind_eq_some_iff]
  simp [Session.run]

/-- An acknowledgement is final in every state of a run exactly when no
expiration notice for the packet is processed while it is listed. -/
theorem acked_final_iff (t t₁ : Session) (hreach : sender.Reachable t)
    (num : ℤ) (stop : Timespec)
    (hlisted : ∃ node ∈ t.cbuffer.nodes, node.seqnum = num)
    (hcall : t.call (.recvACK num stop) = some t₁) (calls : List Call) :
    (∀ front back t', calls = front ++ back → t₁.run front = some t' →
      Final t₁ num t') ↔
      ∀ front back t', calls = front ++ .timerExpire num :: back →
        t₁.run front = some t' →
        ∀ node ∈ t'.cbuffer.nodes, node.seqnum ≠ num := by
  constructor
  · intro hfinal front back t' hcalls hrun node hnode hnum
    -- the notice itself takes the mark away
    have hexpired := (hfinal (front ++ [.timerExpire num]) back
      { t' with cbuffer := t'.cbuffer.timerExpire num } (by simp [hcalls])
      (run_concat.2 ⟨t', hrun, rfl⟩)).marked
    have hack := hexpired { node with ack := 0 } (by
      refine List.mem_map.2 ⟨node, hnode, ?_⟩
      rw [if_pos hnum]) hnum
    simp at hack
  · intro hnotice front
    suffices hdone : ∀ back t', calls = front ++ back →
        t₁.run front = some t' → Done t₁ num t' by
      exact fun back t' hcalls hrun => (hdone back t' hcalls hrun).final
    induction front using List.reverseRecOn with
    | nil =>
        intro back t' _ hrun
        cases hrun
        exact done_of_recvACK (window_reachable hreach) hlisted hcall
    | append_singleton front c ih =>
        intro back t'' hcalls hrun
        obtain ⟨t', hfront, hc⟩ := run_concat.1 hrun
        rw [List.append_assoc, List.singleton_append] at hcalls
        refine (ih (c :: back) t' hcalls hfront).call hc ?_
        rintro rfl
        exact hnotice front back t' hcalls hfront

/-- The session after two bytes have been added one by one. -/
def twoBytes : Session where
  cbuffer := { oneByte.cbuffer with
    cirbuffer := write oneByte.cbuffer.cirbuffer 1 [8]
    nodes := [{ seqnum := 1, data := 0, size := 1, ack := 0 },
      { seqnum := 2, data := 1, size := 1, ack := 0 }]
    dend := 2
    windowend := 2
    packseq := 3 }
  accepted := [7, 8]
  packets := [[7], [8]]
  sent := []
  freed := []

theorem oneByte_addData : oneByte.call (.addData [8]) = some twoBytes := by
  have hcut : newPackNodes 1 2 1 = some ([⟨2, 1, 1, 0⟩], 3) := by
    simp [newPackNodes, signedInt, cmod]
  have hadd : oneByte.cbuffer.addData [8] ([8] : List UInt8).length =
      some (1, [], twoBytes.cbuffer) := by
    simp [CBuffer.addData, CBuffer.start, spaceLeft, CBuffer.store, memcpyIn,
      checkWindow, freeAcked, fillWindow, disttowindow, cmod, nextData, hcut,
      oneByte, twoBytes]
  change Option.map _ (oneByte.cbuffer.addData [8] ([8] : List UInt8).length) = _
  rw [hadd]
  simp [oneByte, created, payload, twoBytes]
  decide

/-- Both packets have been sent, and packet 2 has got this mark since. -/
def twoBytesSent (on ack : ℤ) : Session :=
  { twoBytes with
    cbuffer := { twoBytes.cbuffer with
      packtimes := ⟨1, 1, ⟨0, 0⟩⟩ :: ⟨2, on, ⟨0, 0⟩⟩ ::
        CBuffer.start.packtimes.tail.tail
      nodes := [{ seqnum := 1, data := 0, size := 1, ack := 1 },
        { seqnum := 2, data := 1, size := 1, ack := ack }] }
    sent := [{ bsn := 1, datagram := datagram 1 [7] },
      { bsn := 2, datagram := datagram 2 [8] }] }

theorem twoBytes_sendWindow :
    twoBytes.call (.sendWindow fun _ => ⟨0, 0⟩) = some (twoBytesSent 1 1) := by
  rfl

theorem twoBytesSent_recvACK :
    (twoBytesSent 1 1).call (.recvACK 2 ⟨0, 0⟩) = some (twoBytesSent 0 2) := by
  have htimes : (twoBytesSent 1 1).cbuffer.timeComps (elapsed ⟨0, 0⟩ ⟨0, 0⟩) =
      (twoBytesSent 1 1).cbuffer := by
    simp [timeComps, elapsed, twoBytesSent, twoBytes, oneByte, CBuffer.start]
  have hcut : newPackNodes 2 3 0 = some ([], 3) := by
    simp [newPackNodes]
  have hfill : (twoBytesSent 0 2).cbuffer.fillWindow =
      some (twoBytesSent 0 2).cbuffer := by
    change Option.map _ (newPackNodes 2 3 0) = _
    rw [hcut]
    rfl
  have hrecv : (twoBytesSent 1 1).cbuffer.recvACK 2 ⟨0, 0⟩ =
      some (1, [], (twoBytesSent 0 2).cbuffer) := by
    change Option.map _ (Option.map _ (CBuffer.fillWindow
      { (twoBytesSent 1 1).cbuffer.timeComps (elapsed ⟨0, 0⟩ ⟨0, 0⟩) with
        packtimes := (twoBytesSent 0 2).cbuffer.packtimes
        nodes := (twoBytesSent 0 2).cbuffer.nodes })) = _
    rw [htimes]
    change Option.map _ (Option.map _ (twoBytesSent 0 2).cbuffer.fillWindow) = _
    rw [hfill]
    rfl
  rw [Session.call, hrecv]
  rfl

theorem twoBytesSent_reachable : sender.Reachable (twoBytesSent 1 1) :=
  (oneByte_reachable.step oneByte_addData).step twoBytes_sendWindow

/-- Packet 2 is acknowledged ahead of packet 1, which expires and is sent
again: for packet 2 that changes nothing. -/
theorem acked_final_iff_twoBytes :
    ∃ t', (twoBytesSent 0 2).run
        [.timerExpire 1, .sendWindow fun _ => ⟨0, 0⟩] = some t' ∧
      Final (twoBytesSent 0 2) 2 t' := by
  have hfinal := (acked_final_iff (twoBytesSent 1 1) (twoBytesSent 0 2)
    twoBytesSent_reachable 2 ⟨0, 0⟩
    ⟨_, List.mem_cons_of_mem _ (List.mem_singleton_self _), rfl⟩
    twoBytesSent_recvACK [.timerExpire 1, .sendWindow fun _ => ⟨0, 0⟩]).2 (by
      intro front back t' hcalls
      have hnotice : Call.timerExpire 2 ∈ front ++ .timerExpire 2 :: back := by
        simp
      rw [← hcalls] at hnotice
      simp at hnotice)
  exact ⟨_, rfl, hfinal _ [] _ (List.append_nil _).symm rfl⟩

/-- Packet 2 is acknowledged ahead of packet 1 while its expiration notice is on
its way: the notice makes `sendWindow` send it again. -/
theorem not_acked_final :
    ¬ ∀ (t t₁ : Session), sender.Reachable t → ∀ (num : ℤ) (stop : Timespec),
      (∃ node ∈ t.cbuffer.nodes, node.seqnum = num) →
      t.call (.recvACK num stop) = some t₁ → ∀ calls t',
        t₁.run calls = some t' → Final t₁ num t' := by
  intro hclaim
  have hfinal := hclaim (twoBytesSent 1 1) (twoBytesSent 0 2)
    twoBytesSent_reachable 2 ⟨0, 0⟩
    ⟨_, List.mem_cons_of_mem _ (List.mem_singleton_self _), rfl⟩
    twoBytesSent_recvACK
    [.timerExpire 2, .sendWindow fun _ => ⟨0, 0⟩] _ rfl
  have hsent := hfinal.not_sent { bsn := 2, datagram := datagram 2 [8] }
    (List.mem_singleton_self _)
  exact hsent rfl

end UdpTransfer.Sender
