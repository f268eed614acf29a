import UdpTransfer.Sender.Packets

/-!
# The stream of the sender

The packets cut from the buffer, one behind the other, are the bytes that
`addData` accepted, as long as `used` counts the bytes that are stored and not
yet acknowledged.  It miscounts in one case: when the last stored byte is
acknowledged while `dend` stands at 64000, `dstart` goes to 0 and the empty
buffer passes for a full one.
-/

namespace UdpTransfer.Sender

open UdpTransfer.Memory
open UdpTransfer.Runs
open UdpTransfer.Wire
open CBuffer

/-- The calls the sender is promised: chunks of 1 to 1000 bytes, and
acknowledgements of packets that were sent. -/
def orderly : Session → Call → Prop
  | _, .addData chunk => 1 ≤ chunk.length ∧ chunk.length ≤ 1000
  | t, .recvACK num _ => ∃ sent ∈ t.sent, sent.bsn = num
  | _, .sendWindow _ => True
  | _, .timerExpire _ => True

/-- The call acknowledges the last stored byte, and `dend` stands at 64000. -/
def drains : Session → Call → Prop
  | t, .recvACK num _ =>
      t.cbuffer.dend = 64000 ∧
        t.cbuffer.dstart + total t.cbuffer.nodes = 64000 ∧
        (∃ node ∈ t.cbuffer.nodes, node.seqnum = num) ∧
        ∀ node ∈ t.cbuffer.nodes, node.seqnum = num ∨ node.ack = 2
  | _, _ => False

/-- Of the accepted bytes the first `done` are acknowledged, the others stored,
and the packets cover what is acknowledged or listed. -/
structure Streamed (packets : List (List UInt8)) (accepted : List UInt8)
    (s : CBuffer) (done : ℕ) : Prop where
  length_eq : (accepted.length : ℤ) = done + used s
  stored : circRead 64000 s.cirbuffer s.dstart (used s).toNat =
    accepted.drop done
  cut : packets.flatten = accepted.take (done + (total s.nodes).toNat)

/-- The payloads of packets that lie one behind the other. -/
theorem Tiles.flatten_payload {s : CBuffer} {nodes : List PackNode} :
    ∀ {data seq data' seq' : ℤ}, Tiles data seq nodes data' seq' →
      (nodes.map (payload s)).flatten =
        circRead 64000 s.cirbuffer data (total nodes).toNat := by
  induction nodes with
  | nil =>
      rintro data seq data' seq' -
      rfl
  | cons node nodes ih =>
      rintro data seq data' seq' ⟨hdata, -, hpos, -, hrest⟩
      have hnonneg := total_nonneg hrest.size_bounds
      have htotal : (total (node :: nodes)).toNat =
          node.size.toNat + (total nodes).toNat := by
        rw [total_cons]
        omega
      rw [List.map_cons, List.flatten_cons, ih hrest, htotal, circRead_add,
        payload, hdata]
      congr 1
      apply circRead_congr
      intro i _
      rw [Int.toNat_of_nonneg (by omega)]
      exact circ_congr ((Int.mod_modEq _ _).add_right _)

/-- Part of the stored bytes, read from the buffer. -/
theorem circRead_stored {mem : ℕ → UInt8} {a : ℤ} {stored : List UInt8}
    {count m n : ℕ} (hstored : circRead 64000 mem a count = stored)
    (hfit : m + n ≤ count) :
    circRead 64000 mem (a + m) n = (stored.drop m).take n := by
  have hcount : count = m + (n + (count - m - n)) := by omega
  rw [← hstored, hcount, circRead_add, circRead_add,
    List.drop_left' (length_circRead _ _ _ _),
    List.take_left' (length_circRead _ _ _ _)]

theorem circRead_rest {mem : ℕ → UInt8} {a : ℤ} {stored : List UInt8}
    {count m : ℕ} (hstored : circRead 64000 mem a count = stored)
    (hfit : m ≤ count) :
    circRead 64000 mem (a + m) (count - m) = stored.drop m := by
  rw [circRead_stored hstored (by omega), List.take_of_length_le]
  rw [← hstored, List.length_drop, length_circRead]

/-- `checkWindow` keeps the stream, if freeing packets takes their bytes off
the count. -/
theorem Streamed.rewind {packets : List (List UInt8)} {accepted : List UInt8}
    {mid s' : CBuffer} {done : ℕ} {freed kept new : List PackNode}
    (hstream : Streamed packets accepted mid done)
    (hrewind : Rewindowed mid freed kept new s')
    (hsizes : ∀ node ∈ mid.nodes, 1 ≤ node.size ∧ node.size ≤ 1000)
    (hused : used s' = used mid - total freed) (hs' : InBuffer s') :
    Streamed (packets ++ new.map (payload s')) accepted s'
      (done + (total freed).toNat) := by
  obtain ⟨hlength, hstored, hcut⟩ := hstream
  have hnodes := hrewind.nodes_eq
  have hfreed : 0 ≤ total freed := total_nonneg fun node hnode =>
    hsizes node (by simp [hnodes, hnode])
  have hkept : 0 ≤ total kept := total_nonneg fun node hnode =>
    hsizes node (by simp [hnodes, hnode])
  have hnew := total_nonneg hrewind.new_tiles.size_bounds
  have hbounds := used_bounds hs'
  have htotal : total mid.nodes = total freed + total kept := by
    rw [hnodes, total_append]
  have htotal' : total s'.nodes = total kept + total new := by
    rw [hrewind.nodes_eq', total_append]
  have hwindow := hrewind.total_eq
  refine ⟨by push_cast; omega, ?_, ?_⟩
  · rw [hrewind.cirbuffer_eq, ← List.drop_drop, ← circRead_rest hstored
      (by omega)]
    have hcount : (used s').toNat = (used mid).toNat - (total freed).toNat := by
      omega
    rw [hcount, hrewind.dstart_eq]
    apply circRead_congr
    intro i _
    rw [Int.toNat_of_nonneg hfreed]
    exact circ_congr ((Int.mod_modEq _ _).add_right _)
  · have hcount : done + (total freed).toNat + (total s'.nodes).toNat =
        done + (total mid.nodes).toNat + (total new).toNat := by
      omega
    have hpayloads : (new.map (payload s')).flatten =
        (accepted.drop (done + (total mid.nodes).toNat)).take
          (total new).toNat := by
      rw [hrewind.new_tiles.flatten_payload, ← List.drop_drop,
        ← circRead_stored hstored (by omega), hrewind.cirbuffer_eq]
      apply circRead_congr
      intro i _
      rw [Int.toNat_of_nonneg (by omega)]
      exact circ_congr ((Int.mod_modEq _ _).add_right _)
    rw [List.flatten_append, hcut, hpayloads, hcount, ← List.take_add]

/-- A chunk that is stored goes behind the stream. -/
theorem Streamed.store {packets : List (List UInt8)} {accepted : List UInt8}
    {s mid : CBuffer} {done : ℕ} {chunk : List UInt8}
    (hstream : Streamed packets accepted s done) (hs : Window s)
    (hstored : Stored s chunk mid) (hchunk : chunk ≠ []) :
    Streamed packets (accepted ++ chunk) mid done := by
  obtain ⟨hlength, hread, hcut⟩ := hstream
  have hused := hstored.used_add hchunk
  have hbounds := used_bounds hs.toInBuffer
  have hwindow := hs.total_eq
  have hroom := hstored.room
  refine ⟨?_, ?_, ?_⟩
  · rw [hused, List.length_append]
    push_cast
    omega
  · have hcount : (used mid).toNat = (used s).toNat + chunk.length := by omega
    rw [hcount, circRead_add, List.drop_append_of_le_length (by omega), ← hread,
      hstored.dstart_eq]
    have hend := dend_modEq hs.toInBuffer
    congr 1
    · apply circRead_congr
      intro i hi
      apply hstored.write.outside
      intro j hj hclash
      obtain ⟨k, hk⟩ := Int.modEq_iff_dvd.1
        (hclash.trans (hend.add_right _))
      omega
    · apply List.ext_getElem (length_circRead _ _ _ _)
      intro i hi hi'
      rw [getElem_circRead, Int.toNat_of_nonneg hbounds.1,
        ← hstored.write.inside i hi']
      exact circ_congr (hend.symm.add_right _)
  · rw [hstored.nodes_eq, hcut, List.take_append_of_le_length (by omega)]

theorem Streamed.mark {packets : List (List UInt8)} {accepted : List UInt8}
    {s s' : CBuffer} {done : ℕ} (hstream : Streamed packets accepted s done)
    (hsame : SameBytes s s') (hshape : shape s'.nodes = shape s.nodes) :
    Streamed packets accepted s' done := by
  obtain ⟨hlength, hstored, hcut⟩ := hstream
  have hused := hsame.used_eq
  refine ⟨?_, ?_, ?_⟩
  · rw [hused, hlength]
  · rw [hused, hsame.cirbuffer_eq, hsame.dstart_eq, hstored]
  · rw [total_congr hshape, hcut]

/-- Freeing packets takes their bytes off the count, except when it empties the
buffer with `dend` at the very end. -/
theorem Rewindowed.used_sub {mid s' : CBuffer}
    {freed kept new : List PackNode}
    (hrewind : Rewindowed mid freed kept new s') (hin : InBuffer mid)
    (hsizes : ∀ node ∈ mid.nodes, 1 ≤ node.size ∧ node.size ≤ 1000)
    (htotal : total mid.nodes = min (used mid) 20000) (hne : mid.nodes ≠ [])
    (hdrain : ¬ (kept = [] ∧ mid.dend = 64000 ∧
      mid.dstart + total mid.nodes = 64000)) :
    used s' = used mid - total freed := by
  have hnodes := hrewind.nodes_eq
  have hfreed : 0 ≤ total freed := total_nonneg fun node hnode =>
    hsizes node (by simp [hnodes, hnode])
  have hkept : 0 ≤ total kept := total_nonneg fun node hnode =>
    hsizes node (by simp [hnodes, hnode])
  have hsum : total mid.nodes = total freed + total kept := by
    rw [hnodes, total_append]
  have hpos := total_pos hne hsizes
  have hend := dend_modEq hin
  obtain ⟨h1, h2, h3, h4⟩ := hin
  rw [hrewind.used_eq, hrewind.dstart_eq]
  by_cases hall : kept = []
  · rw [if_pos ⟨hne, hall⟩]
    rw [hall, total_nil, add_zero] at hsum
    by_cases hcount : total freed = used mid
    · rw [usedOf_drain h1 h2 h3 h4 (by omega) (by omega) hcount, hcount,
        sub_self, if_neg]
      intro hdend
      refine hdrain ⟨hall, hdend, ?_⟩
      rw [hdend, Int.ModEq] at hend
      omega
    · exact usedOf_advance h1 h2 h3 h4 (by omega) (by rw [← used]; omega)
  · rw [if_neg (by tauto)]
    have hpos : 0 < total kept := total_pos hall fun node hnode =>
      hsizes node (by simp [hnodes, hnode])
    rcases eq_or_lt_of_le hfreed with hzero | hcount
    · rw [← hzero, add_zero, Int.emod_eq_of_lt h1 h2, sub_zero]
      rfl
    · exact usedOf_advance h1 h2 h3 h4 hcount (by rw [← used]; omega)

/-- The count after packets are freed.  A buffer that is emptied while `dend`
stands at the very end passes for a full one. -/
theorem Rewindowed.used_freed {mid s' : CBuffer}
    {freed kept new : List PackNode}
    (hrewind : Rewindowed mid freed kept new s') (hin : InBuffer mid)
    (hsizes : ∀ node ∈ mid.nodes, 1 ≤ node.size ∧ node.size ≤ 1000)
    (htotal : total mid.nodes = min (used mid) 20000) (hne : mid.nodes ≠ []) :
    used s' =
      if total freed = used mid ∧ mid.dend = 64000 then 64000
      else used mid - total freed := by
  have hpos := total_pos hne hsizes
  have hsum : total mid.nodes = total freed + total kept := by
    rw [hrewind.nodes_eq, total_append]
  have hend := dend_modEq hin
  split
  · rename_i hdrain
    obtain ⟨hcount, hdend⟩ := hdrain
    have hkept : kept = [] := by
      by_contra hkept
      have := total_pos hkept fun node hnode =>
        hsizes node (by simp [hrewind.nodes_eq, hnode])
      omega
    rw [hkept, total_nil] at hsum
    rw [hrewind.used_eq, if_pos ⟨hne, hkept⟩, hrewind.dstart_eq,
      usedOf_drain hin.dstart_nonneg hin.dstart_lt hin.dend_nonneg hin.dend_le
        (by omega) (by omega) hcount, if_pos hdend]
  · rename_i hdrain
    refine hrewind.used_sub hin hsizes htotal hne ?_
    rintro ⟨rfl, hdend, hlast⟩
    refine hdrain ⟨?_, hdend⟩
    have hbounds := used_bounds hin
    rw [total_nil, add_zero] at hsum
    rw [hdend, Int.ModEq] at hend
    omega

theorem Streamed.addData {packets : List (List UInt8)}
    {accepted chunk : List UInt8} {s s' : CBuffer} {done : ℕ} {result : ℤ}
    (hstream : Streamed packets accepted s done) (hs : Window s)
    (hs' : Window s') (hchunk : chunk ≠ []) (hadded : Added s chunk result s') :
    Streamed (packets ++ created s s')
      (if result = 1 then accepted ++ chunk else accepted) s' done := by
  have hzero : done + (total []).toNat = done := rfl
  cases hadded with
  | accepted mid s' new hstored hrewind =>
      obtain ⟨first, htiles⟩ := hstored.tiles hs
      rw [if_pos rfl, ← hzero,
        hrewind.created_eq ⟨first, _, htiles⟩ hstored.packseq_eq]
      refine (hstream.store hs hstored hchunk).rewind hrewind
        htiles.size_bounds ?_ hs'.toInBuffer
      rw [← hstored.nodes_eq] at hrewind
      rw [total_nil, sub_zero, (hrewind.keep hstored.inBuffer).2]
  | rejected mid s' _ hmid hrewind =>
      have htouched := touched_spaceLeft s
      rw [← hmid] at htouched
      have hwindow := htouched.window hs
      obtain ⟨first, data, htiles⟩ := hwindow.tiled
      rw [if_neg (by decide), ← hzero,
        hrewind.created_eq ⟨first, data, htiles⟩ htouched.packseq_eq]
      have hmark : Streamed packets accepted mid done := by
        obtain ⟨hlength, hstored, hcut⟩ := hstream
        refine ⟨?_, ?_, ?_⟩
        · rw [htouched.used_eq, hlength]
        · rw [htouched.used_eq, htouched.cirbuffer_eq, htouched.dstart_eq,
            hstored]
        · rw [htouched.nodes_eq, hcut]
      refine hmark.rewind hrewind htiles.size_bounds ?_ hs'.toInBuffer
      rw [← htouched.nodes_eq] at hrewind
      rw [total_nil, sub_zero, (hrewind.keep hwindow.toInBuffer).2]

theorem Streamed.recvACK {t : Session} {num result : ℤ} {stop : Timespec}
    {s' : CBuffer} {done : ℕ} {freed : List PackNode}
    (hstream : Streamed t.packets t.accepted t.cbuffer done)
    (hs : Window t.cbuffer) (hs' : Window s')
    (hdrain : ¬ drains t (.recvACK num stop))
    (hacked : Acked t.cbuffer num result freed s') :
    ∃ done', Streamed (t.packets ++ created t.cbuffer s') t.accepted s'
      done' := by
  cases hacked with
  | absent i s' _ _ hsame hnodes _ =>
      rw [hs.created_eq_nil hnodes, List.append_nil]
      exact ⟨done, hstream.mark hsame (by rw [hnodes])⟩
  | listed i mid s' before after node freed kept new _ hnodes hnum hsame hmid _
      hrewind =>
      have hshape : shape mid.nodes = shape t.cbuffer.nodes := by
        rw [hmid, hnodes, shape_marked]
      obtain ⟨⟨first, hmidTiles⟩, htotal⟩ := hs.tiles_marked hsame hshape
      rw [hrewind.created_eq ⟨first, _, hmidTiles⟩ hsame.packseq_eq]
      refine ⟨_, (hstream.mark hsame hshape).rewind hrewind
        hmidTiles.size_bounds (hrewind.used_sub
          (hsame.inBuffer hs.toInBuffer) hmidTiles.size_bounds htotal ?_ ?_)
        hs'.toInBuffer⟩
      · rw [hmid]
        simp [marked]
      · rintro ⟨rfl, hdend, hlast⟩
        refine hdrain ⟨by rw [← hsame.dend_eq, hdend], ?_,
          ⟨node, by simp [hnodes], hnum⟩, ?_⟩
        · rw [← hsame.dstart_eq, ← total_congr hshape, hlast]
        · intro other hother
          have hfreed := hrewind.freed_acked other
          rw [← List.append_nil freed, ← hrewind.nodes_eq, hmid, marked]
            at hfreed
          rw [hnodes] at hother
          simp only [List.mem_append, List.mem_cons] at hfreed hother
          rcases hother with hother | rfl | hother
          · exact .inr (hfreed (.inl hother))
          · exact .inl hnum
          · exact .inr (hfreed (.inr (.inr hother)))

theorem Streamed.called {t t' : Session} {c : Call} {done : ℕ}
    (hstream : Streamed t.packets t.accepted t.cbuffer done)
    (hs : Window t.cbuffer) (hs' : Window t'.cbuffer) (horderly : orderly t c)
    (hdrain : ¬ drains t c) (hcalled : Called t c t') :
    ∃ done', Streamed t'.packets t'.accepted t'.cbuffer done' := by
  cases hcalled with
  | addData chunk result s hadded =>
      have hchunk : chunk ≠ [] := List.ne_nil_of_length_pos horderly.1
      exact ⟨done, hstream.addData hs hs' hchunk hadded⟩
  | sendWindow clock sents s htrans =>
      obtain ⟨hsame, hshape⟩ := htrans.sameBytes
      exact ⟨done, hstream.mark hsame hshape⟩
  | recvACK num stop result freed s hacked =>
      exact hstream.recvACK hs hs' hdrain hacked
  | timerExpire bsn =>
      exact ⟨done, hstream.mark ⟨rfl, rfl, rfl, rfl, rfl⟩
        (shape_timerExpire _ _)⟩

theorem streamed_start : Streamed [] [] CBuffer.start 0 := ⟨rfl, rfl, rfl⟩

/-- The packets are the stream, in every session in which the last stored byte
is never acknowledged while `dend` stands at 64000. -/
theorem packets_prefix (t : Session)
    (hreach : (sender.restrict fun t c => orderly t c ∧ ¬ drains t c).Reachable
      t) :
    (t.packets.length : ℤ) + 1 = t.cbuffer.packseq ∧
      t.packets.flatten <+: t.accepted ∧
      ∀ sent ∈ t.sent,
        packet t.packets sent.bsn = some sent.datagram.payload := by
  have hrec := recorded_reachable hreach
  obtain ⟨done, hstream⟩ := session_invariant
    (I := fun t => ∃ done, Streamed t.packets t.accepted t.cbuffer done)
    ⟨0, streamed_start⟩
    (fun t c t' hguard hs hs' hcalled ⟨done, hstream⟩ =>
      hstream.called hs hs' hguard.1 hguard.2 hcalled) hreach
  refine ⟨hrec.count, ?_, ?_⟩
  · rw [hstream.cut]
    exact List.take_prefix _ _
  · intro sent hsent
    obtain ⟨bytes, hpacket, heq⟩ := hrec.sent sent hsent
    rw [hpacket, heq]
    rfl

/-- One byte has been added and its packet sent. -/
theorem packets_prefix_oneByte :
    ∃ t, (sender.restrict fun t c => orderly t c ∧ ¬ drains t c).Reachable t ∧
      t.sent = [{ bsn := 1, datagram := datagram 1 [7] }] ∧
      ((t.packets.length : ℤ) + 1 = t.cbuffer.packseq ∧
        t.packets.flatten <+: t.accepted ∧
        ∀ sent ∈ t.sent,
          packet t.packets sent.bsn = some sent.datagram.payload) := by
  have hadded : (sender.restrict fun t c =>
      orderly t c ∧ ¬ drains t c).Reachable
      (oneByteSent ⟨0, 0, ⟨0, 0⟩⟩ 0 []) :=
    .step (l := .addData [7]) (.initial rfl)
      ⟨⟨⟨by decide, by decide⟩, id⟩, start_addData⟩
  have hsent : (sender.restrict fun t c =>
      orderly t c ∧ ¬ drains t c).Reachable (oneByteSent ⟨1, 1, ⟨0, 0⟩⟩ 1
        [{ bsn := 1, datagram := datagram 1 [7] }]) :=
    hadded.step (l := .sendWindow fun _ => ⟨0, 0⟩)
      ⟨⟨trivial, id⟩, oneByteSent_sendWindow ⟨0, 0, ⟨0, 0⟩⟩ [] rfl⟩
  exact ⟨_, hsent, rfl, packets_prefix _ hsent⟩

/-! ## A session that drains the buffer -/

theorem newPackNodes_isSome {data packseq dist : ℤ} :
    0 ≤ packseq → packseq + (max dist 0 + 999) / 1000 ≤ 2147483647 →
      (newPackNodes data packseq dist).isSome := by
  induction data, packseq, dist using newPackNodes.induct with
  | case1 data packseq dist hpos mini =>
      rename_i ih
      intro hlow hfit
      have hmini : mini = min 1000 dist := rfl
      have hsucc : signedInt (packseq + 1) = some (packseq + 1) :=
        signedInt_eq_some.2 ⟨rfl, by omega, by omega⟩
      rw [newPackNodes, if_pos hpos, hsucc, Option.bind_some,
        Option.isSome_map]
      exact ih _ (by omega) (by omega)
  | case2 data packseq dist hpos =>
      intro _ _
      rw [newPackNodes, if_neg hpos]
      rfl

theorem fillWindow_isSome {s : CBuffer} (hs : InBuffer s)
    (hlow : 0 ≤ s.packseq)
    (hfit : s.packseq +
      (max (min (used s) 20000 - total s.nodes) 0 + 999) / 1000 ≤ 2147483647) :
    s.fillWindow.isSome := by
  have hused := used_bounds hs
  rw [fillWindow, spaceLeft_eq]
  dsimp only
  rw [sub_sub_cancel,
    disttowindow_eq hs.dstart_nonneg hs.dstart_lt hused.1, ← total]
  split
  · rw [Option.isSome_map]
    exact newPackNodes_isSome hlow hfit
  · rfl

/-- `checkWindow` returns as long as there are packet numbers left. -/
theorem checkWindow_isSome {s : CBuffer} (hs : InBuffer s)
    (htiles : ∃ first data, Tiles s.dstart first s.nodes data s.packseq)
    (hlow : 0 ≤ s.packseq) (hfit : s.packseq + 20000 ≤ 2147483647) :
    s.checkWindow.isSome := by
  obtain ⟨first, data, htiles⟩ := htiles
  have hsizes := htiles.size_bounds
  rw [checkWindow, freeAcked_eq, foldl_cmod hs.dstart_nonneg hs.dstart_lt
    fun node hnode => hsizes node (List.takeWhile_subset _ hnode)]
  dsimp only
  rw [Option.isSome_map]
  have hkept : 0 ≤ total (s.nodes.dropWhile acked) := total_nonneg
    fun node hnode => hsizes node (List.dropWhile_subset _ hnode)
  refine fillWindow_isSome ⟨?_, ?_, hs.dend_nonneg, hs.dend_le⟩ hlow ?_
  · simp only
    omega
  · simp only
    omega
  · simp only
    omega

theorem recvACK_isSome {s : CBuffer} {num : ℤ} (stop : Timespec)
    (hs : Window s)
    (hfind : ∃ i, s.packtimes.findIdx? (fun slot => slot.bsn = num) = some i)
    (hlow : 0 ≤ s.packseq) (hfit : s.packseq + 20000 ≤ 2147483647) :
    (s.recvACK num stop).isSome := by
  obtain ⟨i, hfind⟩ := hfind
  rw [recvACK, hfind, Option.bind_some]
  dsimp only
  obtain ⟨srtt, rttvar, rto, htimes⟩ := timeComps_eq s
    (elapsed ((s.packtimes[i]?.map RttPack.timestart).getD ⟨0, 0⟩) stop)
  rw [htimes]
  split
  · rename_i nodes hmark
    rw [Option.isSome_map]
    refine checkWindow_isSome
      ⟨hs.dstart_nonneg, hs.dstart_lt, hs.dend_nonneg, hs.dend_le⟩ ?_ hlow hfit
    obtain ⟨before, node, after, hnodes, -, rfl⟩ := markAcked_eq_some hmark
    simp only at hnodes
    obtain ⟨first, data, htiles⟩ := hs.tiled
    refine ⟨first, data, (tiles_congr ?_).2 htiles⟩
    rw [shape_marked, hnodes]
  · rfl

/-- `k` chunks of 1000 bytes have been added, sent and acknowledged, one after
the other. -/
structure Drained (k : ℕ) (t : Session) : Prop where
  nodes_eq : t.cbuffer.nodes = []
  dstart_eq : t.cbuffer.dstart = 1000 * k
  dend_eq : t.cbuffer.dend = 1000 * k
  packseq_eq : t.cbuffer.packseq = k + 1
  isEmpty_eq : t.cbuffer.isEmpty = 1
  slot_off : ∃ slot rest, t.cbuffer.packtimes = slot :: rest ∧ slot.on = 0
  accepted_length : t.accepted.length = 1000 * k
  packets_length : t.packets.flatten.length = 1000 * k

/-- One more chunk is listed. -/
structure Loaded (k : ℕ) (ack : ℤ) (t : Session) : Prop where
  nodes_eq : t.cbuffer.nodes = [⟨k + 1, 1000 * k, 1000, ack⟩]
  dstart_eq : t.cbuffer.dstart = 1000 * k
  dend_eq : t.cbuffer.dend = 1000 * k + 1000
  packseq_eq : t.cbuffer.packseq = k + 2
  accepted_length : t.accepted.length = 1000 * k + 1000
  packets_length : t.packets.flatten.length = 1000 * k + 1000

theorem Drained.addData {k : ℕ} {t : Session} {chunk : List UInt8}
    (hdrained : Drained k t) (hk : k < 64)
    (hchunk : (chunk.length : ℤ) = 1000) :
    ∃ t', t.call (.addData chunk) = some t' ∧ Loaded k 0 t' ∧
      t'.cbuffer.packtimes = t.cbuffer.packtimes := by
  obtain ⟨⟨cirbuffer, packtimes, nodes, dstart, dend, windowend, packseq,
    isEmpty, srtt, rttvar, rto⟩, accepted, packets, sent, freed⟩ := t
  obtain ⟨rfl, rfl, rfl, rfl, rfl, -, haccepted, hpackets⟩ := hdrained
  have hcut : newPackNodes (1000 * k) (k + 1) 1000 =
      some ([(⟨k + 1, 1000 * k, 1000, 0⟩ : PackNode)], (k : ℤ) + 1 + 1) := by
    have hsucc : signedInt ((k : ℤ) + 1 + 1) = some ((k : ℤ) + 1 + 1) :=
      signedInt_eq_some.2 ⟨rfl, by omega, by omega⟩
    simp [newPackNodes, hsucc]
  have hcopy : memcpyIn 64000 cirbuffer (1000 * k) chunk 0 1000 =
      some (write cirbuffer (1000 * (k : ℤ)).toNat chunk) := by
    rw [memcpyIn, if_pos (by omega), Int.toNat_zero, List.drop_zero,
      List.take_of_length_le (by omega)]
  have hroom : 1000 ≤ 64000 - 1000 * (k : ℤ) := by omega
  have hdist := disttowindow_eq (show 0 ≤ 1000 * (k : ℤ) by omega) (by omega)
    (show (0 : ℤ) ≤ 1000 by decide)
  rw [if_neg (by decide)] at hdist
  simp only [Session.call, CBuffer.addData, spaceLeft, Nat.ofNat_pos,
    lt_self_iff_false, if_false, if_true, Nat.abs_ofNat,
    hchunk, ge_iff_le, Int.reduceLE, CBuffer.store, hroom, hcopy,
    Option.map_some, checkWindow, fillWindow, gt_iff_lt, nextData,
    Option.map_map, Option.bind_some, freeAcked, add_lt_iff_neg_left,
    Int.reduceLT, lt_add_iff_pos_right, add_sub_cancel_left, Int.reduceSub,
    hdist, inf_of_le_left, List.nil_append, List.getLast?_nil, List.map_nil,
    List.sum_nil, sub_zero, hcut, Function.comp_apply, Option.some.injEq,
    exists_eq_left', and_true]
  refine ⟨rfl, rfl, rfl, ?_, ?_, ?_⟩
  · simp only
    omega
  · simp only [List.length_append] at haccepted ⊢
    omega
  · simp only [List.flatten_append, List.length_append] at hpackets ⊢
    simp [created, payload, hpackets]

theorem Loaded.sendWindow {k : ℕ} {t : Session} (hloaded : Loaded k 0 t)
    (hk : k < 64) {slot : RttPack} {rest : List RttPack}
    (hslots : t.cbuffer.packtimes = slot :: rest) (hoff : slot.on = 0) :
    ∃ t', t.call (.sendWindow fun _ => ⟨0, 0⟩) = some t' ∧ Loaded k 1 t' ∧
      t'.cbuffer.packtimes = { bsn := k + 1, on := 1, timestart := ⟨0, 0⟩ } ::
        rest ∧
      ∃ bytes, { bsn := k + 1, datagram := datagram (k + 1) bytes } ∈ t'.sent ∧
        bytes.length = 1000 := by
  obtain ⟨⟨cirbuffer, packtimes, nodes, dstart, dend, windowend, packseq,
    isEmpty, srtt, rttvar, rto⟩, accepted, packets, sent, freed⟩ := t
  obtain ⟨rfl, rfl, rfl, rfl, haccepted, hpackets⟩ := hloaded
  simp only at hslots
  subst hslots
  have hfit : ¬ 64000 < 1000 + 1000 * (k : ℤ) := by omega
  have hread : memcpyOut 64000 cirbuffer (1000 * k) 1000 =
      some (Memory.read cirbuffer (1000 * (k : ℤ)).toNat 1000) := by
    rw [memcpyOut, if_pos (by omega)]
    rfl
  simp only [Session.call, CBuffer.sendWindow, List.length_cons,
    List.length_nil, zero_add, List.range_one, List.foldlM_cons, sendAt,
    zero_lt_one, getElem?_pos, List.getElem_cons_zero, gt_iff_lt,
    lt_self_iff_false, if_false, if_true, List.nil_append, sendNode,
    requestSize, requestData, packetBytes, hfit, hread, Option.map_some,
    Nat.ofNat_pos, Std.le_refl, and_self, List.findIdx?_cons, hoff,
    decide_true, List.set_cons_zero, Option.bind_some, List.modify_zero_cons,
    List.foldlM_nil, Option.pure_def, Option.bind_eq_bind,
    Option.bind_fun_some, Option.some.injEq, exists_eq_left', true_and]
  exact ⟨⟨rfl, rfl, rfl, rfl, haccepted, hpackets⟩, _, List.mem_append_right _
    (List.mem_singleton_self _), length_read _ _ _⟩

theorem Loaded.recvACK {k : ℕ} {t : Session} (hloaded : Loaded k 1 t)
    (hk : k < 64) (hs : Window t.cbuffer) {slot : RttPack}
    {rest : List RttPack} (hslots : t.cbuffer.packtimes = slot :: rest)
    (hslot : slot.bsn = k + 1) :
    ∃ t', t.call (.recvACK (k + 1) ⟨0, 0⟩) = some t' ∧
      (k : ℤ) + 1 ∈ t'.freed ∧ (k + 1 < 64 → Drained (k + 1) t') ∧
      (k + 1 = 64 → t'.accepted.length = 64000 ∧
        t'.packets.flatten.length = 84000) := by
  have hfirst : t.cbuffer.packtimes.findIdx?
      (fun slot => slot.bsn = (k : ℤ) + 1) = some 0 := by
    simp [hslots, hslot, List.findIdx?_cons]
  have hpackseq := hloaded.packseq_eq
  obtain ⟨⟨result, freed, s'⟩, hrecv⟩ := Option.isSome_iff_exists.1
    (recvACK_isSome ⟨0, 0⟩ hs ⟨0, hfirst⟩ (by omega) (by omega))
  refine ⟨_, by rw [Session.call, hrecv]; rfl, ?_⟩
  obtain ⟨hacked, hs'⟩ := recvACK_acked hs hrecv
  cases hacked with
  | absent i s' _ habsent _ _ _ =>
      exact absurd rfl (habsent ⟨k + 1, 1000 * k, 1000, 1⟩
        (by simp [hloaded.nodes_eq]))
  | listed i mid s' before after node freed kept new hfind hnodes hnum hsame
      hmid hpacktimes hrewind =>
      have hnew := hrewind.created_eq (s := t.cbuffer)
        (hs.tiled_congr hsame (by rw [hmid, hnodes, shape_marked]))
        hsame.packseq_eq
      obtain ⟨rfl, rfl, rfl⟩ : before = [] ∧ node = ⟨k + 1, 1000 * k, 1000, 1⟩ ∧
          after = [] := by
        rw [hloaded.nodes_eq] at hnodes
        cases before with
        | nil => simpa [eq_comm] using hnodes
        | cons other before => simp at hnodes
      obtain ⟨rfl, rfl⟩ : freed = [⟨k + 1, 1000 * k, 1000, 2⟩] ∧ kept = [] := by
        obtain ⟨hfreed, hkept⟩ := hrewind.freed_eq
        rw [hmid, marked] at hfreed hkept
        exact ⟨hfreed, hkept⟩
      have hslot' : i = 0 := by
        rw [hfirst] at hfind
        exact (Option.some.inj hfind).symm
      have hdstart : s'.dstart = (1000 * k + 1000) % 64000 := by
        rw [hrewind.dstart_eq, hsame.dstart_eq, hloaded.dstart_eq]
        rfl
      have hdend : s'.dend = 1000 * k + 1000 := by
        rw [hrewind.dend_eq, hsame.dend_eq, hloaded.dend_eq]
      have hused : used s' = usedOf ((1000 * k + 1000) % 64000)
          (1000 * k + 1000) 1 := by
        rw [hrewind.used_eq, if_pos (by simp [hmid, marked]), hdstart,
          ← hrewind.dend_eq, hdend]
      have htotal := hrewind.total_eq
      rw [hrewind.nodes_eq', List.nil_append] at htotal
      have hpackets : (t.packets ++ created t.cbuffer s').flatten.length =
          1000 * k + 1000 + (total new).toNat := by
        rw [hnew, List.flatten_append, List.length_append,
          hrewind.new_tiles.flatten_payload, length_circRead,
          hloaded.packets_length]
      refine ⟨List.mem_append_right _ (List.mem_singleton_self _), ?_, ?_⟩
      · intro hlt
        have hzero : used s' = 0 := by
          rw [hused, usedOf]
          split_ifs <;> omega
        have hnil : new = [] := by
          by_contra hne
          have := total_pos hne hrewind.new_tiles.size_bounds
          omega
        subst hnil
        have hpackseq := hrewind.new_tiles.seq_eq
        rw [hsame.packseq_eq, hloaded.packseq_eq, List.length_nil,
          Nat.cast_zero] at hpackseq
        refine
          { nodes_eq := hrewind.nodes_eq'
            dstart_eq := by simp only; omega
            dend_eq := by simp only; omega
            packseq_eq := by simp only; omega
            isEmpty_eq := ?_
            slot_off := ⟨{ slot with on := 0 }, rest, ?_, rfl⟩
            accepted_length := by simp only [hloaded.accepted_length]; omega
            packets_length := by simp only [hpackets, total_nil]; omega }
        · rw [used, usedOf] at hzero
          simp only
          split_ifs at hzero <;> omega
        · simp only
          rw [hrewind.packtimes_eq, hpacktimes, hslots, hslot']
          rfl
      · intro hlast
        have hfull : used s' = 64000 := by
          rw [hused, usedOf]
          split_ifs <;> omega
        refine ⟨?_, ?_⟩
        · simp only [hloaded.accepted_length]
          omega
        · simp only [hpackets]
          omega

theorem Drained.round {k : ℕ} {t : Session} (hdrained : Drained k t)
    (hk : k < 64) (hreach : (sender.restrict orderly).Reachable t) :
    ∃ t', (sender.restrict orderly).Reachable t' ∧
      (k + 1 < 64 → Drained (k + 1) t') ∧
      (k + 1 = 64 → t'.accepted.length = 64000 ∧
        t'.packets.flatten.length = 84000) := by
  obtain ⟨chunk, hchunk⟩ : ∃ chunk : List UInt8, chunk.length = 1000 :=
    ⟨List.replicate 1000 0, List.length_replicate⟩
  obtain ⟨slot, rest, hslots, hoff⟩ := hdrained.slot_off
  obtain ⟨added, hadd, hlisted, hpacktimes⟩ :=
    hdrained.addData hk (show (chunk.length : ℤ) = 1000 by omega)
  rw [hslots] at hpacktimes
  obtain ⟨sent, hsend, hloaded, hslots', bytes, hsent, -⟩ :=
    hlisted.sendWindow hk hpacktimes hoff
  have hpromised : orderly t (.addData chunk) := ⟨by omega, by omega⟩
  have hadded : (sender.restrict orderly).Reachable added :=
    hreach.step ⟨hpromised, hadd⟩
  have hsended : (sender.restrict orderly).Reachable sent :=
    hadded.step (l := .sendWindow fun _ => ⟨0, 0⟩) ⟨trivial, hsend⟩
  obtain ⟨t', hrecv, -, hnext, hlast⟩ := hloaded.recvACK hk
    (window_reachable hsended.of_restrict) hslots' rfl
  exact ⟨t', hsended.step (l := .recvACK (k + 1) ⟨0, 0⟩) ⟨⟨_, hsent, rfl⟩, hrecv⟩,
    hnext, hlast⟩

theorem drained_start : Drained 0 Session.start :=
  { nodes_eq := rfl
    dstart_eq := rfl
    dend_eq := rfl
    packseq_eq := rfl
    isEmpty_eq := rfl
    slot_off := ⟨_, _, rfl, rfl⟩
    accepted_length := rfl
    packets_length := rfl }

theorem exists_drained (k : ℕ) (hk : k < 64) :
    ∃ t, (sender.restrict orderly).Reachable t ∧ Drained k t := by
  induction k with
  | zero => exact ⟨Session.start, .initial rfl, drained_start⟩
  | succ k ih =>
      obtain ⟨t, hreach, hdrained⟩ := ih (by omega)
      obtain ⟨t', hreach', hnext, -⟩ := hdrained.round (by omega) hreach
      exact ⟨t', hreach', hnext hk⟩

/-- After 64 chunks of 1000 bytes, each acknowledged before the next, there are
20 packets of bytes that nobody added. -/
theorem not_packets_prefix :
    ¬ ∀ t, (sender.restrict orderly).Reachable t →
      t.packets.flatten <+: t.accepted := by
  intro hfront
  obtain ⟨t, hreach, hdrained⟩ := exists_drained 63 (by decide)
  obtain ⟨t', hreach', -, hlast⟩ := hdrained.round (by decide) hreach
  obtain ⟨haccepted, hpackets⟩ := hlast rfl
  have := (hfront t' hreach').length_le
  omega

end UdpTransfer.Sender
