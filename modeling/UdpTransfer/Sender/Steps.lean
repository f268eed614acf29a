import UdpTransfer.Sender.Window

/-!
# What a call of the sender can do

One inversion for each call on a buffer whose window is in order: the chunk
that `addData` stores, the packets that `sendWindow` sends, one after the
other, the packet that `recvACK` marks.  Each also says that the window is in
order again.
-/

namespace UdpTransfer.Sender

open UdpTransfer.Memory
open UdpTransfer.Wire
open CBuffer

/-! ## Marking packets -/

/-- What a list of packets is, apart from the `ack` fields. -/
def shape (nodes : List PackNode) : List (ℤ × ℤ × ℤ) :=
  nodes.map fun node => (node.seqnum, node.data, node.size)

theorem tiles_congr {nodes : List PackNode} :
    ∀ {nodes' : List PackNode} {data seq data' seq' : ℤ},
      shape nodes' = shape nodes →
      (Tiles data seq nodes' data' seq' ↔ Tiles data seq nodes data' seq') := by
  induction nodes with
  | nil =>
      intro nodes' data seq data' seq' hshape
      rw [List.map_eq_nil_iff.1 hshape]
  | cons node nodes ih =>
      intro nodes' data seq data' seq' hshape
      cases nodes' with
      | nil => simp [shape] at hshape
      | cons node' nodes' =>
          simp only [shape, List.map_cons, List.cons.injEq,
            Prod.mk.injEq] at hshape
          obtain ⟨⟨hseqnum, hdata, hsize⟩, hrest⟩ := hshape
          simp only [Tiles, hseqnum, hdata, hsize, ih hrest]

theorem total_congr {nodes nodes' : List PackNode}
    (hshape : shape nodes' = shape nodes) : total nodes' = total nodes := by
  have hsizes := congrArg (List.map fun entry : ℤ × ℤ × ℤ => entry.2.2) hshape
  simp only [shape, List.map_map] at hsizes
  exact congrArg List.sum hsizes

/-- Marking packets leaves the window in order, if no acknowledged packet comes
to stand in front. -/
theorem Window.mark {s s' : CBuffer} (hs : Window s)
    (hshape : shape s'.nodes = shape s.nodes) (hdstart : s'.dstart = s.dstart)
    (hdend : s'.dend = s.dend) (hpackseq : s'.packseq = s.packseq)
    (hempty : s'.isEmpty = s.isEmpty)
    (hacks : ∀ node ∈ s'.nodes, node.ack = 0 ∨ node.ack = 1 ∨ node.ack = 2)
    (hhead : ∀ node ∈ s'.nodes.head?, node.ack ≠ 2) : Window s' := by
  obtain ⟨first, htiles⟩ := hs.tiles
  refine
    { dstart_nonneg := hdstart ▸ hs.dstart_nonneg
      dstart_lt := hdstart ▸ hs.dstart_lt
      dend_nonneg := hdend ▸ hs.dend_nonneg
      dend_le := hdend ▸ hs.dend_le
      tiles := ⟨first, ?_⟩
      total_eq := ?_
      acks := hacks
      head_ack := hhead }
  · rw [tiles_congr hshape, total_congr hshape, hdstart, hpackseq]
    exact htiles
  · rw [total_congr hshape, hs.total_eq, used, used, hdstart, hdend, hempty]

theorem Window.pairwise {s : CBuffer} (hs : Window s) :
    s.nodes.Pairwise fun node other => node.seqnum < other.seqnum := by
  obtain ⟨first, htiles⟩ := hs.tiles
  exact htiles.pairwise

/-- Around the packet at a place of the list all numbers differ from its own. -/
theorem Window.seqnum_ne {s : CBuffer} (hs : Window s)
    {before after : List PackNode} {node : PackNode}
    (hnodes : s.nodes = before ++ node :: after) :
    (∀ other ∈ before, other.seqnum ≠ node.seqnum) ∧
      ∀ other ∈ after, other.seqnum ≠ node.seqnum := by
  have hpairs := hs.pairwise
  rw [hnodes, List.pairwise_append, List.pairwise_cons] at hpairs
  exact ⟨fun other hother => (hpairs.2.2 other hother node (by simp)).ne,
    fun other hother => (hpairs.2.1.1 other hother).ne'⟩

/-- The list with the packet in the middle marked. -/
def marked (before : List PackNode) (node : PackNode) (ack : ℤ)
    (after : List PackNode) : List PackNode :=
  before ++ { node with ack := ack } :: after

@[simp]
theorem shape_marked (before after : List PackNode) (node : PackNode)
    (ack : ℤ) :
    shape (marked before node ack after) = shape (before ++ node :: after) := by
  simp [shape, marked]

theorem markAcked_eq_some {num : ℤ} {nodes : List PackNode} :
    ∀ {nodes' : List PackNode}, markAcked num nodes = some nodes' →
      ∃ before node after, nodes = before ++ node :: after ∧
        node.seqnum = num ∧ nodes' = marked before node 2 after := by
  induction nodes with
  | nil => simp [markAcked]
  | cons current rest ih =>
      intro nodes' hmark
      rw [markAcked] at hmark
      split at hmark
      · rename_i hnum
        cases hmark
        exact ⟨[], current, rest, rfl, hnum, rfl⟩
      · rw [Option.map_eq_some_iff] at hmark
        obtain ⟨rest', hrest, rfl⟩ := hmark
        obtain ⟨before, node, after, rfl, hnum, rfl⟩ := ih hrest
        exact ⟨current :: before, node, after, rfl, hnum, rfl⟩

theorem markAcked_eq_none {num : ℤ} {nodes : List PackNode}
    (hmark : markAcked num nodes = none) :
    ∀ node ∈ nodes, node.seqnum ≠ num := by
  induction nodes with
  | nil => simp
  | cons current rest ih =>
      rw [markAcked] at hmark
      split at hmark
      · cases hmark
      · rename_i hnum
        rw [Option.map_eq_none_iff] at hmark
        exact List.forall_mem_cons.2 ⟨hnum, ih hmark⟩

/-! ## sendWindow -/

theorem requestSize_mid {num : ℤ} {before after : List PackNode}
    {node : PackNode} (hbefore : ∀ other ∈ before, other.seqnum ≠ num)
    (hnum : node.seqnum = num) :
    requestSize num (before ++ node :: after) =
      (node.size, marked before node 1 after) := by
  induction before with
  | nil => simp [requestSize, marked, hnum]
  | cons other before ih =>
      rw [List.forall_mem_cons] at hbefore
      rw [List.cons_append, requestSize, if_neg hbefore.1, ih hbefore.2]
      rfl

theorem requestData_mid {cirbuffer : ℕ → UInt8} {num : ℤ}
    {before after : List PackNode} {node : PackNode}
    (hbefore : ∀ other ∈ before, other.seqnum ≠ num)
    (hnum : node.seqnum = num) :
    requestData cirbuffer num (marked before node 1 after) =
      (packetBytes cirbuffer node).map fun bytes =>
        (bytes, marked before node 1 after) := by
  induction before with
  | nil =>
      simp only [marked, List.nil_append, requestData, hnum, if_true]
      rfl
  | cons other before ih =>
      rw [List.forall_mem_cons] at hbefore
      simp only [marked, List.cons_append] at ih ⊢
      rw [requestData, if_neg hbefore.1, ih hbefore.2, Option.map_map]
      rfl

theorem packetBytes_circRead {cirbuffer : ℕ → UInt8} {node : PackNode}
    {bytes : List UInt8} (hbytes : packetBytes cirbuffer node = some bytes) :
    bytes = circRead 64000 cirbuffer node.data node.size.toNat := by
  rw [packetBytes] at hbytes
  split at hbytes
  · rw [Option.bind_eq_some_iff] at hbytes
    obtain ⟨first, hfirst, hrest⟩ := hbytes
    rw [Option.map_eq_some_iff] at hrest
    obtain ⟨second, hsecond, rfl⟩ := hrest
    exact memcpyOut_split hfirst hsecond
  · exact memcpyOut_eq_circRead hbytes

/-- One packet of the list is sent: it is read from the buffer, a free
`packtimes` entry is taken, and it is marked as under way. -/
structure Transmits (s : CBuffer) (sent : Sent) (before : List PackNode)
    (node : PackNode) (after : List PackNode) (slot : ℕ) (clock : Timespec)
    (s' : CBuffer) : Prop where
  nodes_eq : s.nodes = before ++ node :: after
  not_sent : ¬ node.ack > 0
  slot_off : s.packtimes.findIdx? (fun slot => slot.on = 0) = some slot
  sent_eq : sent =
    { bsn := node.seqnum
      datagram := datagram node.seqnum
        (circRead 64000 s.cirbuffer node.data node.size.toNat) }
  state_eq : s' = { s with
    packtimes := s.packtimes.set slot
      { bsn := node.seqnum, on := 1, timestart := clock }
    nodes := marked before node 1 after }

/-- Packets sent one after the other. -/
inductive Transmissions (s : CBuffer) : List Sent → CBuffer → Prop where
  | nil : Transmissions s [] s
  | snoc {sents : List Sent} {s' s'' : CBuffer} {sent : Sent}
      {before : List PackNode} {node : PackNode} {after : List PackNode}
      {slot : ℕ} {clock : Timespec} :
      Transmissions s sents s' → Window s' →
      Transmits s' sent before node after slot clock s'' →
      Transmissions s (sents ++ [sent]) s''

theorem Transmits.window {s s' : CBuffer} {sent : Sent}
    {before after : List PackNode} {node : PackNode} {slot : ℕ}
    {clock : Timespec}
    (hsend : Transmits s sent before node after slot clock s')
    (hs : Window s) : Window s' := by
  have hstate := hsend.state_eq
  refine hs.mark ?_ ?_ ?_ ?_ ?_ ?_ ?_
  · rw [hstate, hsend.nodes_eq, shape_marked]
  · rw [hstate]
  · rw [hstate]
  · rw [hstate]
  · rw [hstate]
  · intro other hother
    rw [hstate] at hother
    simp only [marked, List.mem_append, List.mem_cons] at hother
    rcases hother with hother | rfl | hother
    · exact hs.acks other (by simp [hsend.nodes_eq, hother])
    · exact .inr (.inl rfl)
    · exact hs.acks other (by simp [hsend.nodes_eq, hother])
  · intro other hother
    rw [hstate] at hother
    cases before with
    | nil =>
        simp only [marked, List.nil_append, List.head?_cons,
          Option.mem_some_iff] at hother
        subst hother
        simp only
        decide
    | cons first before =>
        refine hs.head_ack other ?_
        rw [hsend.nodes_eq]
        simpa [marked] using hother

/-- The buffer apart from its packets, its `packtimes` and its estimates. -/
structure SameBytes (s mid : CBuffer) : Prop where
  cirbuffer_eq : mid.cirbuffer = s.cirbuffer
  dstart_eq : mid.dstart = s.dstart
  dend_eq : mid.dend = s.dend
  packseq_eq : mid.packseq = s.packseq
  isEmpty_eq : mid.isEmpty = s.isEmpty

theorem Window.tiled_congr {s s' : CBuffer} (hs : Window s)
    (hsame : SameBytes s s') (hshape : shape s'.nodes = shape s.nodes) :
    ∃ first data, Tiles s'.dstart first s'.nodes data s'.packseq := by
  obtain ⟨first, data, htiles⟩ := hs.tiled
  refine ⟨first, data, ?_⟩
  rw [tiles_congr hshape, hsame.dstart_eq, hsame.packseq_eq]
  exact htiles

theorem SameBytes.used_eq {s mid : CBuffer} (hsame : SameBytes s mid) :
    used mid = used s := by
  rw [used, used, hsame.dstart_eq, hsame.dend_eq, hsame.isEmpty_eq]

theorem SameBytes.inBuffer {s mid : CBuffer} (hsame : SameBytes s mid)
    (hs : InBuffer s) : InBuffer mid := by
  obtain ⟨h1, h2, h3, h4⟩ := hs
  rw [← hsame.dstart_eq] at h1 h2
  rw [← hsame.dend_eq] at h3 h4
  exact ⟨h1, h2, h3, h4⟩

/-- Where only marks have changed, the packets lie as they lay. -/
theorem Window.tiles_marked {s mid : CBuffer} (hs : Window s)
    (hsame : SameBytes s mid) (hshape : shape mid.nodes = shape s.nodes) :
    (∃ first, Tiles mid.dstart first mid.nodes
      ((mid.dstart + total mid.nodes) % 64000) mid.packseq) ∧
      total mid.nodes = min (used mid) 20000 := by
  obtain ⟨first, htiles⟩ := hs.tiles
  refine ⟨⟨first, ?_⟩, ?_⟩
  · rw [tiles_congr hshape, total_congr hshape, hsame.dstart_eq,
      hsame.packseq_eq]
    exact htiles
  · rw [total_congr hshape, hs.total_eq, hsame.used_eq]

theorem Transmissions.sameBytes {s s' : CBuffer} {sents : List Sent}
    (htrans : Transmissions s sents s') :
    SameBytes s s' ∧ shape s'.nodes = shape s.nodes := by
  induction htrans with
  | nil => exact ⟨⟨rfl, rfl, rfl, rfl, rfl⟩, rfl⟩
  | snoc _ _ hsend ih =>
      obtain ⟨⟨h1, h2, h3, h4, h5⟩, hshape⟩ := ih
      rw [hsend.state_eq]
      refine ⟨⟨h1, h2, h3, h4, h5⟩, ?_⟩
      rw [shape_marked, ← hsend.nodes_eq, hshape]

theorem modify_marked {before after : List PackNode} {node : PackNode} :
    (marked before node 1 after).modify before.length
        (fun node => { node with ack := 1 }) = marked before node 1 after := by
  induction before with
  | nil => rfl
  | cons other before ih =>
      simp only [marked, List.cons_append, List.length_cons,
        List.modify_succ_cons] at ih ⊢
      rw [ih]

theorem sendNode_transmits {s s' : CBuffer} {clock : Timespec} {i : ℕ}
    {current : PackNode} {sent : Sent} (hs : Window s)
    (hcurrent : s.nodes[i]? = some current) (hack : ¬ current.ack > 0)
    (hsend : s.sendNode clock i current = some (sent, s')) :
    ∃ before after slot,
      Transmits s sent before current after slot clock s' := by
  obtain ⟨hi, hget⟩ := List.getElem?_eq_some_iff.1 hcurrent
  have hsplit : s.nodes = s.nodes.take i ++ current :: s.nodes.drop (i + 1) := by
    rw [← hget, ← List.drop_eq_getElem_cons hi, List.take_append_drop]
  have hlength : (s.nodes.take i).length = i := by
    rw [List.length_take]
    omega
  revert hsplit hlength
  generalize s.nodes.take i = before
  generalize s.nodes.drop (i + 1) = after
  intro hsplit hlength
  have hne := (hs.seqnum_ne hsplit).1
  rw [sendNode, hsplit] at hsend
  dsimp only at hsend
  rw [requestSize_mid hne rfl] at hsend
  dsimp only at hsend
  rw [requestData_mid hne rfl, Option.bind_map, Option.bind_eq_some_iff]
    at hsend
  obtain ⟨bytes, hbytes, hsend⟩ := hsend
  simp only [Function.comp_apply] at hsend
  split at hsend
  · rw [Option.map_eq_some_iff] at hsend
    obtain ⟨slot, hslot, heq⟩ := hsend
    rw [← hlength, modify_marked] at heq
    cases heq
    refine ⟨before, after, slot, hsplit, hack, hslot, ?_, rfl⟩
    rw [packetBytes_circRead hbytes]
  · cases hsend

/-- At one place of the list either nothing is done or one packet is sent. -/
theorem sendAt_transmits {s s' : CBuffer} {clock : ℕ → Timespec} {i : ℕ}
    {sents sents' : List Sent} (hs : Window s)
    (hat : sendAt clock (sents, s) i = some (sents', s')) :
    sents' = sents ∧ s' = s ∨
      ∃ sent before node after slot, sents' = sents ++ [sent] ∧
        Transmits s sent before node after slot (clock i) s' := by
  rw [sendAt] at hat
  split at hat
  · cases hat
    exact .inl ⟨rfl, rfl⟩
  · rename_i current hcurrent
    split at hat
    · cases hat
      exact .inl ⟨rfl, rfl⟩
    · rename_i hack
      rw [Option.map_eq_some_iff] at hat
      obtain ⟨⟨sent, s₁⟩, hnode, heq⟩ := hat
      cases heq
      obtain ⟨before, after, slot, hsend⟩ :=
        sendNode_transmits hs hcurrent hack hnode
      exact .inr ⟨sent, before, current, after, slot, rfl, hsend⟩

/-- `sendWindow` sends packets that are not under way, one after the other. -/
theorem sendWindow_transmissions {s s' : CBuffer} {clock : ℕ → Timespec}
    {sents : List Sent} (hs : Window s)
    (hsend : s.sendWindow clock = some (sents, s')) :
    Transmissions s sents s' ∧ Window s' := by
  have hall : ∀ (places : List ℕ) (sents₀ : List Sent) (s₀ : CBuffer),
      Transmissions s sents₀ s₀ → Window s₀ →
      places.foldlM (sendAt clock) (sents₀, s₀) = some (sents, s') →
      Transmissions s sents s' ∧ Window s' := by
    intro places
    induction places with
    | nil =>
        intro sents₀ s₀ htrans hs₀ hfold
        cases hfold
        exact ⟨htrans, hs₀⟩
    | cons i places ih =>
        intro sents₀ s₀ htrans hs₀ hfold
        rw [List.foldlM_cons, Option.bind_eq_bind, Option.bind_eq_some_iff]
          at hfold
        obtain ⟨⟨sents₁, s₁⟩, hat, hfold⟩ := hfold
        rcases sendAt_transmits hs₀ hat with
          ⟨rfl, rfl⟩ | ⟨sent, before, node, after, slot, rfl, htransmits⟩
        · exact ih _ _ htrans hs₀ hfold
        · exact ih _ _ (htrans.snoc hs₀ htransmits)
            (htransmits.window hs₀) hfold
  exact hall _ [] s .nil hs hsend

/-! ## addData -/

/-- A chunk is stored behind the bytes that are there already. -/
structure Stored (s : CBuffer) (data : List UInt8) (mid : CBuffer) :
    Prop where
  nodes_eq : mid.nodes = s.nodes
  dstart_eq : mid.dstart = s.dstart
  packseq_eq : mid.packseq = s.packseq
  packtimes_eq : mid.packtimes = s.packtimes
  isEmpty_eq : mid.isEmpty = 0
  room : (data.length : ℤ) ≤ 64000 - used s
  write : CircWrite 64000 s.cirbuffer mid.cirbuffer s.dend data
  dend_mod : mid.dend ≡ s.dend + data.length [ZMOD 64000]
  inBuffer : InBuffer mid
  used_le : used s ≤ used mid
  used_add : data ≠ [] → used mid = used s + data.length

/-- The packets do not move when a chunk is stored. -/
theorem Stored.tiles {s mid : CBuffer} {data : List UInt8}
    (hstored : Stored s data mid) (hs : Window s) :
    ∃ first, Tiles mid.dstart first mid.nodes
      ((mid.dstart + total mid.nodes) % 64000) mid.packseq := by
  rw [hstored.dstart_eq, hstored.nodes_eq, hstored.packseq_eq]
  exact hs.tiles

theorem store_stored {s mid : CBuffer} {data : List UInt8} (hs : InBuffer s)
    (hroom : (data.length : ℤ) ≤ 64000 - used s)
    (hstore : s.spaceLeft.2.store data data.length = some mid) :
    Stored s data { mid with isEmpty := 0 } := by
  obtain ⟨h1, h2, h3, h4⟩ := hs
  rw [spaceLeft_eq] at hstore
  dsimp only at hstore
  rw [CBuffer.store] at hstore
  dsimp only at hstore
  have hlength : data ≠ [] → 0 < (data.length : ℤ) := fun hne => by
    have := List.length_pos_of_ne_nil hne
    omega
  have hroom' := hroom
  rw [used, usedOf] at hroom'
  split at hstore
  · rename_i hfit
    rw [Option.map_eq_some_iff] at hstore
    obtain ⟨cirbuffer, hcopy, rfl⟩ := hstore
    have hwrite := memcpyIn_circWrite (by omega) hcopy
    rw [Int.toNat_zero, List.drop_zero, List.take_of_length_le (by simp)]
      at hwrite
    refine ⟨rfl, rfl, rfl, rfl, rfl, hroom, hwrite, rfl,
      ⟨h1, h2, by simp only; omega, by simp only; omega⟩, ?_, fun hne => ?_⟩
    · simp only [used, usedOf]
      split_ifs at hroom' ⊢ <;> omega
    · have := hlength hne
      simp only [used, usedOf]
      split_ifs at hroom' ⊢ <;> omega
  · rename_i hfit
    rw [Option.bind_eq_some_iff] at hstore
    obtain ⟨first, hfirst, hrest⟩ := hstore
    rw [Option.map_eq_some_iff] at hrest
    obtain ⟨cirbuffer, hsecond, rfl⟩ := hrest
    have hwrite := memcpyIn_split (by omega)
      (show (data.length : ℤ) ≤ 64000 by split_ifs at hroom' <;> omega)
      hfirst hsecond
    rw [List.take_of_length_le (by simp)] at hwrite
    refine ⟨rfl, rfl, rfl, rfl, rfl, hroom, hwrite, ?_,
      ⟨h1, h2, by simp only; omega, ?_⟩, ?_, fun _ => ?_⟩
    · exact Int.modEq_iff_dvd.2 ⟨1, by simp only; omega⟩
    · simp only
      split_ifs at hroom' <;> omega
    · simp only [used, usedOf]
      split_ifs at hroom' ⊢ <;> omega
    · simp only [used, usedOf]
      split_ifs at hroom' ⊢ <;> omega

/-- The same buffer, but for `isEmpty`, which `spaceLeft` corrects. -/
structure Touched (s mid : CBuffer) : Prop where
  nodes_eq : mid.nodes = s.nodes
  dstart_eq : mid.dstart = s.dstart
  dend_eq : mid.dend = s.dend
  packseq_eq : mid.packseq = s.packseq
  packtimes_eq : mid.packtimes = s.packtimes
  cirbuffer_eq : mid.cirbuffer = s.cirbuffer
  used_eq : used mid = used s

theorem touched_spaceLeft (s : CBuffer) : Touched s s.spaceLeft.2 := by
  rw [spaceLeft_eq]
  exact ⟨rfl, rfl, rfl, rfl, rfl, rfl,
    usedOf_touch s.dstart s.dend s.isEmpty⟩

theorem Touched.window {s mid : CBuffer} (htouched : Touched s mid)
    (hs : Window s) : Window mid := by
  obtain ⟨first, htiles⟩ := hs.tiles
  refine
    { dstart_nonneg := htouched.dstart_eq ▸ hs.dstart_nonneg
      dstart_lt := htouched.dstart_eq ▸ hs.dstart_lt
      dend_nonneg := htouched.dend_eq ▸ hs.dend_nonneg
      dend_le := htouched.dend_eq ▸ hs.dend_le
      tiles := ⟨first, ?_⟩
      total_eq := ?_
      acks := htouched.nodes_eq ▸ hs.acks
      head_ack := htouched.nodes_eq ▸ hs.head_ack }
  · rw [htouched.nodes_eq, htouched.dstart_eq, htouched.packseq_eq]
    exact htiles
  · rw [htouched.nodes_eq, htouched.used_eq, hs.total_eq]

/-- Everything that `addData` can do. -/
inductive Added (s : CBuffer) (data : List UInt8) : ℤ → CBuffer → Prop where
  | accepted (mid s' : CBuffer) (new : List PackNode) :
      Stored s data mid → Rewindowed mid [] s.nodes new s' →
      Added s data 1 s'
  | rejected (mid s' : CBuffer) :
      64000 - used s < data.length →
      mid = s.spaceLeft.2 → Rewindowed mid [] s.nodes [] s' →
      Added s data 0 s'

/-- `checkWindow` frees all packets in front that are acknowledged. -/
theorem Rewindowed.freed_eq {s s' : CBuffer} {freed kept new : List PackNode}
    (hrewind : Rewindowed s freed kept new s') :
    freed = s.nodes.takeWhile acked ∧ kept = s.nodes.dropWhile acked := by
  have hfreed : ∀ node ∈ freed, acked node = true := fun node hnode => by
    simpa [acked] using hrewind.freed_acked node hnode
  rw [hrewind.nodes_eq, List.takeWhile_append_of_pos hfreed,
    List.dropWhile_append_of_pos hfreed]
  cases kept with
  | nil => simp
  | cons node kept =>
      have hnot : acked node = false := by
        simpa [acked] using hrewind.kept_head node rfl
      simp [hnot]

/-- Where no packet in front is acknowledged, nothing is freed. -/
theorem Rewindowed.freed_eq_nil {s s' : CBuffer} {freed kept new : List PackNode}
    (hrewind : Rewindowed s freed kept new s')
    (hhead : ∀ node ∈ s.nodes.head?, node.ack ≠ 2) :
    freed = [] ∧ kept = s.nodes := by
  cases freed with
  | nil => exact ⟨rfl, hrewind.nodes_eq.symm⟩
  | cons node freed =>
      have hacked := hrewind.freed_acked node (by simp)
      exact absurd hacked (hhead node (by simp [hrewind.nodes_eq]))

theorem Rewindowed.keep {s s' : CBuffer} {new : List PackNode}
    (hrewind : Rewindowed s [] s.nodes new s') (hs : InBuffer s) :
    s'.dstart = s.dstart ∧ used s' = used s := by
  have hdstart : s'.dstart = s.dstart := by
    rw [hrewind.dstart_eq, total_nil, add_zero,
      Int.emod_eq_of_lt hs.dstart_nonneg hs.dstart_lt]
  refine ⟨hdstart, ?_⟩
  rw [hrewind.used_eq, hdstart, if_neg (by tauto)]
  rfl

theorem addData_added {s s' : CBuffer} {data : List UInt8} {result : ℤ}
    {freed : List PackNode} (hs : Window s)
    (hadd : s.addData data data.length = some (result, freed, s')) :
    freed = [] ∧ Added s data result s' ∧ Window s' := by
  have hbounds := used_bounds hs.toInBuffer
  have hspace := spaceLeft_eq s
  rw [CBuffer.addData, hspace] at hadd
  dsimp only at hadd
  rw [abs_of_nonneg (by omega)] at hadd
  split at hadd
  · rename_i hroom
    rw [Option.bind_eq_some_iff] at hadd
    obtain ⟨mid, hstore, hadd⟩ := hadd
    rw [Option.map_eq_some_iff] at hadd
    obtain ⟨⟨freed', s''⟩, hcheck, heq⟩ := hadd
    cases heq
    have hstored := store_stored hs.toInBuffer hroom (by rw [hspace]; exact hstore)
    revert hcheck hstored
    generalize ({ mid with isEmpty := 0 } : CBuffer) = mid
    intro hcheck hstored
    have htiles := hstored.tiles hs
    have htotal : total mid.nodes ≤ min (used mid) 20000 := by
      have h1 := hs.total_eq
      have h2 := hstored.used_le
      rw [hstored.nodes_eq]
      omega
    obtain ⟨kept, new, hrewind⟩ :=
      checkWindow_rewindowed hstored.inBuffer htiles htotal hcheck
    obtain ⟨rfl, rfl⟩ := hrewind.freed_eq_nil (by
      rw [hstored.nodes_eq]
      exact hs.head_ack)
    have hwindow := hrewind.window hstored.inBuffer htiles htotal (by
      rw [hstored.nodes_eq]
      exact hs.acks)
    rw [hstored.nodes_eq] at hrewind
    exact ⟨rfl, .accepted mid _ new hstored hrewind, hwindow⟩
  · rename_i hroom
    rw [Option.map_eq_some_iff] at hadd
    obtain ⟨⟨freed', s''⟩, hcheck, heq⟩ := hadd
    cases heq
    have htouched := touched_spaceLeft s
    have hmid := congrArg Prod.snd hspace
    dsimp only at hmid
    rw [← hmid] at hcheck
    generalize hdef : s.spaceLeft.2 = mid at *
    have hwindow := htouched.window hs
    obtain ⟨kept, new, hrewind⟩ := checkWindow_rewindowed hwindow.toInBuffer
      hwindow.tiles hwindow.total_eq.le hcheck
    obtain ⟨rfl, rfl⟩ := hrewind.freed_eq_nil hwindow.head_ack
    have hwindow' := hrewind.window hwindow.toInBuffer hwindow.tiles
      hwindow.total_eq.le hwindow.acks
    -- the window was full already, so nothing new is listed
    have hnew : new = [] := by
      by_contra hne
      have hpos := total_pos hne hrewind.new_tiles.size_bounds
      have htotal' := hrewind.total_eq
      rw [(hrewind.keep hwindow.toInBuffer).2, hrewind.nodes_eq', total_append,
        hwindow.total_eq] at htotal'
      omega
    subst hnew
    rw [htouched.nodes_eq] at hrewind
    exact ⟨rfl, .rejected mid _ (by omega) hdef.symm hrewind, hwindow'⟩

/-! ## recvACK and timerExpire -/

theorem timeComps_eq (s : CBuffer) (delta : ℚ) :
    ∃ srtt rttvar rto, s.timeComps delta =
      { s with srtt := srtt, rttvar := rttvar, rto := rto } := by
  rw [timeComps]
  split_ifs <;> exact ⟨_, _, _, rfl⟩

/-- Everything that `recvACK` can do: the `packtimes` entry of the packet is
closed, and if the packet is still listed, it is marked. -/
inductive Acked (s : CBuffer) (num : ℤ) :
    ℤ → List PackNode → CBuffer → Prop where
  | absent (i : ℕ) (s' : CBuffer) :
      s.packtimes.findIdx? (fun slot => slot.bsn = num) = some i →
      (∀ node ∈ s.nodes, node.seqnum ≠ num) → SameBytes s s' →
      s'.nodes = s.nodes →
      s'.packtimes = s.packtimes.modify i (fun slot => { slot with on := 0 }) →
      Acked s num 0 [] s'
  | listed (i : ℕ) (mid s' : CBuffer) (before after : List PackNode)
      (node : PackNode) (freed kept new : List PackNode) :
      s.packtimes.findIdx? (fun slot => slot.bsn = num) = some i →
      s.nodes = before ++ node :: after → node.seqnum = num →
      SameBytes s mid → mid.nodes = marked before node 2 after →
      mid.packtimes = s.packtimes.modify i (fun slot => { slot with on := 0 }) →
      Rewindowed mid freed kept new s' →
      Acked s num 1 freed s'

theorem recvACK_acked {s s' : CBuffer} {num result : ℤ} {stop : Timespec}
    {freed : List PackNode} (hs : Window s)
    (hrecv : s.recvACK num stop = some (result, freed, s')) :
    Acked s num result freed s' ∧ Window s' := by
  rw [recvACK, Option.bind_eq_some_iff] at hrecv
  obtain ⟨i, hslot, hrecv⟩ := hrecv
  dsimp only at hrecv
  obtain ⟨srtt, rttvar, rto, htimes⟩ := timeComps_eq s
    (elapsed ((s.packtimes[i]?.map RttPack.timestart).getD ⟨0, 0⟩) stop)
  rw [htimes] at hrecv
  dsimp only at hrecv
  cases hmark : markAcked num s.nodes with
  | none =>
      rw [hmark] at hrecv
      cases hrecv
      refine ⟨.absent i _ hslot (markAcked_eq_none hmark)
        ⟨rfl, rfl, rfl, rfl, rfl⟩ rfl rfl, ?_⟩
      exact hs.mark rfl rfl rfl rfl rfl hs.acks hs.head_ack
  | some nodes =>
      rw [hmark] at hrecv
      obtain ⟨before, node, after, hnodes, hnum, rfl⟩ :=
        markAcked_eq_some hmark
      dsimp only at hrecv
      rw [Option.map_eq_some_iff] at hrecv
      obtain ⟨⟨freed', s''⟩, hcheck, heq⟩ := hrecv
      cases heq
      revert hcheck
      generalize hmid : ({ s with
        packtimes := s.packtimes.modify i fun slot => { slot with on := 0 }
        nodes := marked before node 2 after
        srtt := srtt
        rttvar := rttvar
        rto := rto } : CBuffer) = mid
      intro hcheck
      have hsame : SameBytes s mid := by
        rw [← hmid]
        exact ⟨rfl, rfl, rfl, rfl, rfl⟩
      have hmidNodes : mid.nodes = marked before node 2 after := by
        rw [← hmid]
      have hshape : shape mid.nodes = shape s.nodes := by
        rw [hmidNodes, hnodes, shape_marked]
      have hin := hsame.inBuffer hs.toInBuffer
      obtain ⟨htiles, hcount⟩ := hs.tiles_marked hsame hshape
      have htotal : total mid.nodes ≤ min (used mid) 20000 := hcount.le
      obtain ⟨kept, new, hrewind⟩ :=
        checkWindow_rewindowed hin htiles htotal hcheck
      refine ⟨.listed i mid _ before after node _ kept new hslot hnodes hnum
        hsame hmidNodes (by rw [← hmid]) hrewind, ?_⟩
      refine hrewind.window hin htiles htotal ?_
      intro other hother
      rw [hmidNodes, marked, List.mem_append, List.mem_cons] at hother
      rcases hother with hother | rfl | hother
      · exact hs.acks other (by simp [hnodes, hother])
      · exact .inr (.inr rfl)
      · exact hs.acks other (by simp [hnodes, hother])

theorem shape_timerExpire (s : CBuffer) (bsn : ℤ) :
    shape (s.timerExpire bsn).nodes = shape s.nodes := by
  simp only [timerExpire, shape, List.map_map]
  apply List.map_congr_left
  intro node _
  simp only [Function.comp_apply]
  split <;> rfl

theorem timerExpire_window {s : CBuffer} (hs : Window s) (bsn : ℤ) :
    Window (s.timerExpire bsn) := by
  have hmark : ∀ node : PackNode,
      ((if node.seqnum = bsn then { node with ack := 0 } else node).ack = 0 ∨
        (if node.seqnum = bsn then { node with ack := 0 } else node) = node) := by
    intro node
    split
    · exact .inl rfl
    · exact .inr rfl
  refine hs.mark (shape_timerExpire s bsn) rfl rfl rfl rfl ?_ ?_
  · intro other hother
    simp only [timerExpire, List.mem_map] at hother
    obtain ⟨node, hnode, rfl⟩ := hother
    rcases hmark node with h | h
    · exact .inl h
    · rw [h]
      exact hs.acks node hnode
  · intro other hother
    simp only [timerExpire, List.head?_map, Option.mem_map] at hother
    obtain ⟨node, hnode, rfl⟩ := hother
    rcases hmark node with h | h
    · rw [h]
      decide
    · rw [h]
      exact hs.head_ack node hnode

end UdpTransfer.Sender
