import UdpTransfer.Sender.Accounting

/-!
# A backlog

As long as no packet is acknowledged, the bytes that come in stay in the buffer.
With chunks of 1000 bytes every call returns, and the buffer is full after 64 of
them.  The acknowledgement of the first packet then makes room for one more.
-/

namespace UdpTransfer.Sender

open UdpTransfer.Memory
open UdpTransfer.Runs
open CBuffer

/-- Chunks of full size have come in, and packet 1 is still under way. -/
structure Backlog (h : History) : Prop where
  reachable : recorder.Reachable h
  chunks : ∀ size ∈ h.chunks, size = 1000
  packseq_eq : h.session.cbuffer.packseq = h.session.cbuffer.nodes.length + 1
  first : ∃ node rest, h.session.cbuffer.nodes = node :: rest ∧
    node.seqnum = 1 ∧ node.size = 1000 ∧ node.ack = 1

theorem addData_of_call {t t' : Session} {chunk : List UInt8}
    (hcall : t.call (.addData chunk) = some t') :
    ∃ result freed, t.cbuffer.addData chunk chunk.length =
      some (result, freed, t'.cbuffer) := by
  rw [Session.call, Option.map_eq_some_iff] at hcall
  obtain ⟨⟨result, freed, s⟩, hadd, rfl⟩ := hcall
  exact ⟨result, freed, hadd⟩

theorem sendWindow_of_call {t t' : Session} {clock : ℕ → Timespec}
    (hcall : t.call (.sendWindow clock) = some t') :
    ∃ sents, t.cbuffer.sendWindow clock = some (sents, t'.cbuffer) := by
  rw [Session.call, Option.map_eq_some_iff] at hcall
  obtain ⟨⟨sents, s⟩, hsend, rfl⟩ := hcall
  exact ⟨sents, hsend⟩

theorem History.extend {h : History} {c : Call} {t' : Session}
    (hreach : recorder.Reachable h) (hcall : h.session.call c = some t') :
    ∃ h', recorder.Reachable h' ∧ h'.session = t' ∧
      h'.chunks = h.chunks ++ chunkTaken h.session.cbuffer c :=
  ⟨⟨t', _, _⟩, hreach.step (History.call_eq_some.2 ⟨hcall, rfl, rfl⟩), rfl, rfl⟩

theorem History.addData {h : History} {chunk : List UInt8} {result : ℤ}
    {freed : List PackNode} {s' : CBuffer} (hreach : recorder.Reachable h)
    (hadd : h.session.cbuffer.addData chunk chunk.length =
      some (result, freed, s')) :
    ∃ h', recorder.Reachable h' ∧ h'.session.cbuffer = s' ∧
      h'.chunks = h.chunks ++ if result = 1 then [chunk.length] else [] := by
  obtain ⟨h', hreach', hsession, hchunks⟩ :=
    @History.extend h (.addData chunk) _ hreach (by rw [Session.call, hadd]; rfl)
  rw [chunkTaken_addData hadd] at hchunks
  exact ⟨h', hreach', by rw [hsession], hchunks⟩

/-- Where all chunks have had full size, `sendWindow` returns. -/
theorem History.sendWindow {h : History} (hreach : recorder.Reachable h)
    (hchunks : ∀ size ∈ h.chunks, size = 1000) (clock : ℕ → Timespec) :
    ∃ sents h', h.session.cbuffer.sendWindow clock =
        some (sents, h'.session.cbuffer) ∧
      recorder.Reachable h' ∧ h'.chunks = h.chunks ∧
      Transmissions h.session.cbuffer sents h'.session.cbuffer := by
  have hs := window_reachable (session_reachable hreach)
  have hfree := findsFree_reachable hreach
    (fun size hsize => hchunks size (List.dropLast_subset _ hsize)) clock
  obtain ⟨sents, s', hsend⟩ := foldlM_sendAt_isSome hs hfree
    h.session.cbuffer.nodes.length
  obtain ⟨h', hreach', hsession, hchunks'⟩ :=
    @History.extend h (.sendWindow clock) _ hreach
      (by rw [Session.call, CBuffer.sendWindow, hsend]; rfl)
  have hcbuffer : h'.session.cbuffer = s' := by rw [hsession]
  refine ⟨sents, h', ?_, hreach', ?_, ?_⟩
  · rw [CBuffer.sendWindow, hsend, hcbuffer]
  · simpa only [chunkTaken, List.append_nil] using hchunks'
  · rw [hcbuffer]
    exact (sendWindow_transmissions hs hsend).1

theorem Added.nodes_append {s s' : CBuffer} {data : List UInt8} {result : ℤ}
    (hadded : Added s data result s') :
    ∃ new, s'.nodes = s.nodes ++ new ∧ s'.packseq = s.packseq + new.length := by
  cases hadded with
  | accepted mid _ new hstored hrewind =>
      refine ⟨new, hrewind.nodes_eq', ?_⟩
      rw [hrewind.new_tiles.seq_eq, hstored.packseq_eq]
  | rejected mid _ _ hmid hrewind =>
      refine ⟨[], hrewind.nodes_eq', ?_⟩
      rw [hrewind.new_tiles.seq_eq, hmid, (touched_spaceLeft s).packseq_eq]

/-- A first packet under way stays as it is while others are sent. -/
theorem Transmissions.first {s s' : CBuffer} {sents : List Sent}
    (htrans : Transmissions s sents s') {node : PackNode}
    {rest : List PackNode} (hnodes : s.nodes = node :: rest)
    (hack : node.ack = 1) : ∃ rest', s'.nodes = node :: rest' := by
  induction htrans with
  | nil => exact ⟨rest, hnodes⟩
  | @snoc _ mid s'' _ before current after _ _ _ _ hsend ih =>
      obtain ⟨rest', hmid⟩ := ih
      have hsplit := hsend.nodes_eq
      rw [hmid] at hsplit
      rw [hsend.state_eq]
      cases before with
      | nil =>
          rw [List.nil_append, List.cons.injEq] at hsplit
          have hnot := hsend.not_sent
          rw [← hsplit.1, hack] at hnot
          exact absurd one_pos hnot
      | cons other before =>
          rw [List.cons_append, List.cons.injEq] at hsplit
          exact ⟨_, by rw [hsplit.1]; rfl⟩

theorem Backlog.window {h : History} (hback : Backlog h) :
    Window h.session.cbuffer :=
  window_reachable (session_reachable hback.reachable)

/-- At most twenty packets are listed. -/
theorem Backlog.length_le {h : History} (hback : Backlog h) :
    h.session.cbuffer.nodes.length ≤ 20 :=
  hback.window.length_le (cut_reachable hback.reachable
    fun size hsize => hback.chunks size (List.dropLast_subset _ hsize)).full

/-- A chunk of full size is taken as long as there is room for it. -/
theorem Backlog.addData {h : History} (hback : Backlog h) {chunk : List UInt8}
    (hchunk : chunk.length = 1000) :
    ∃ result freed h', h.session.cbuffer.addData chunk chunk.length =
        some (result, freed, h'.session.cbuffer) ∧ Backlog h' ∧
      (1000 ≤ h.session.cbuffer.spaceLeft.1 → result = 1 ∧
        h'.session.cbuffer.spaceLeft.1 =
          h.session.cbuffer.spaceLeft.1 - 1000) ∧
      (h.session.cbuffer.spaceLeft.1 < 1000 → result = 0 ∧
        h'.session.cbuffer.spaceLeft.1 = h.session.cbuffer.spaceLeft.1) := by
  have hs := hback.window
  have hlength := hback.length_le
  have hpackseq := hback.packseq_eq
  have hcount : Countable h.session.cbuffer chunk := by
    refine ⟨fun hnil => ?_, ?_⟩
    · rw [hnil] at hchunk
      cases hchunk
    · rw [packetsFor]
      omega
  have haccounted := hcount.accounted hs (by omega) (by omega) hchunk.le
  have hkeep : ∀ result freed s', h.session.cbuffer.addData chunk chunk.length =
      some (result, freed, s') →
      ∃ h', h'.session.cbuffer = s' ∧ Backlog h' := by
    intro result freed s' hadd
    obtain ⟨h', hreach', hcbuffer, hchunks⟩ :=
      History.addData hback.reachable hadd
    obtain ⟨-, hadded, -⟩ := addData_added hs hadd
    obtain ⟨new, hnodes, hseq⟩ := hadded.nodes_append
    obtain ⟨node, rest, hfirst, hnode⟩ := hback.first
    refine ⟨h', hcbuffer, hreach', ?_, ?_, ?_⟩
    · rw [hchunks]
      intro size hsize
      rcases List.mem_append.1 hsize with hsize | hsize
      · exact hback.chunks size hsize
      · split at hsize
        · rw [List.mem_singleton.1 hsize, hchunk]
        · cases hsize
    · rw [hcbuffer, hseq, hnodes, hpackseq, List.length_append]
      push_cast
      omega
    · rw [hcbuffer, hnodes, hfirst]
      exact ⟨node, rest ++ new, rfl, hnode⟩
  rcases le_or_gt 1000 h.session.cbuffer.spaceLeft.1 with hroom | hfull
  · obtain ⟨freed, s', hadd, hspace, -⟩ := haccounted.accepted (by omega)
    obtain ⟨h', rfl, hback'⟩ := hkeep 1 freed s' hadd
    exact ⟨1, freed, h', hadd, hback', fun _ => ⟨rfl, by rw [hspace, hchunk]; rfl⟩,
      fun h => by omega⟩
  · obtain ⟨freed, s', hadd, -, -, -, -, hspace⟩ :=
      haccounted.rejected (by omega)
    obtain ⟨h', rfl, hback'⟩ := hkeep 0 freed s' hadd
    exact ⟨0, freed, h', hadd, hback', fun h => by omega, fun _ => ⟨rfl, hspace⟩⟩

theorem Backlog.sendWindow {h : History} (hback : Backlog h)
    (clock : ℕ → Timespec) :
    ∃ sents h', h.session.cbuffer.sendWindow clock =
        some (sents, h'.session.cbuffer) ∧ Backlog h' ∧
      h'.session.cbuffer.spaceLeft.1 = h.session.cbuffer.spaceLeft.1 := by
  obtain ⟨sents, h', hsend, hreach', hchunks, htrans⟩ :=
    History.sendWindow hback.reachable hback.chunks clock
  obtain ⟨hsame, hshape⟩ := htrans.sameBytes
  obtain ⟨node, rest, hfirst, hnode⟩ := hback.first
  refine ⟨sents, h', hsend, ⟨hreach', hchunks ▸ hback.chunks, ?_, ?_⟩, ?_⟩
  · have hlength := congrArg List.length hshape
    simp only [shape, List.length_map] at hlength
    rw [hsame.packseq_eq, hlength, hback.packseq_eq]
  · obtain ⟨rest', hrest⟩ := htrans.first hfirst hnode.2.2
    exact ⟨node, rest', hrest, hnode⟩
  · rw [fst_spaceLeft, fst_spaceLeft, hsame.used_eq]

/-- The acknowledgement of packet 1 frees it. -/
theorem Backlog.recvACK {h : History} (hback : Backlog h)
    (hfull : h.session.cbuffer.spaceLeft.1 = 0) (stop : Timespec) :
    ∃ result freed h', h.session.cbuffer.recvACK 1 stop =
        some (result, freed, h'.session.cbuffer) ∧
      recorder.Reachable h' ∧ h'.chunks = h.chunks ∧
      1000 ≤ h'.session.cbuffer.spaceLeft.1 ∧
      0 ≤ h'.session.cbuffer.packseq ∧ h'.session.cbuffer.packseq ≤ 1000 := by
  have hs := hback.window
  have hlength := hback.length_le
  have hpackseq := hback.packseq_eq
  obtain ⟨first, rest, hfirst, hseqnum, hsize, hack⟩ := hback.first
  have hmem : first ∈ h.session.cbuffer.nodes := by simp [hfirst]
  obtain ⟨slot, hslot, -⟩ :=
    (matched_reachable hback.reachable).finds_newest hmem hack
  rw [hseqnum] at hslot
  obtain ⟨⟨result, freed, s'⟩, hrecv⟩ := Option.isSome_iff_exists.1
    (recvACK_isSome stop hs ⟨slot, hslot⟩ (by omega) (by omega))
  obtain ⟨h', hreach', hsession, hchunks⟩ :=
    @History.extend h (.recvACK 1 stop) _ hback.reachable
      (by rw [Session.call, hrecv]; rfl)
  have hcbuffer : h'.session.cbuffer = s' := by rw [hsession]
  refine ⟨result, freed, h', by rw [hrecv, hcbuffer], hreach', ?_, ?_⟩
  · simpa only [chunkTaken, List.append_nil] using hchunks
  · rw [hcbuffer]
    obtain ⟨hacked, hs'⟩ := recvACK_acked hs hrecv
    cases hacked with
    | absent _ _ _ habsent => exact absurd hseqnum (habsent first hmem)
    | listed _ mid _ before after node _ kept new _ hnodes hnum hsame hmid _
        hrewind =>
        obtain ⟨⟨_, htiles⟩, htotal⟩ := hs.tiles_marked hsame
          (by rw [hmid, hnodes, shape_marked])
        have hsizes := htiles.size_bounds
        -- packet 1 is the first of the list
        obtain ⟨rfl, rfl, rfl⟩ : before = [] ∧ node = first ∧ after = rest := by
          rw [hfirst] at hnodes
          cases before with
          | nil => simpa [eq_comm] using hnodes
          | cons other before =>
              rw [List.cons_append, List.cons.injEq] at hnodes
              have hne := (hs.seqnum_ne (hfirst.trans (by
                rw [hnodes.1, hnodes.2]; rfl :
                first :: rest = (other :: before) ++ node :: after))).1
                other List.mem_cons_self
              rw [← hnodes.1, hseqnum, hnum] at hne
              exact absurd rfl hne
        have hused : used mid = 64000 := by
          rw [fst_spaceLeft] at hfull
          rw [hsame.used_eq]
          omega
        obtain ⟨more, hmore⟩ : ∃ more, freed = { node with ack := 2 } :: more := by
          rw [hrewind.freed_eq.1, hmid]
          exact ⟨after.takeWhile acked, rfl⟩
        have hnodes' := hrewind.nodes_eq
        have hpart : 0 ≤ total more ∧ 0 ≤ total kept := by
          constructor <;> refine total_nonneg fun other hother => hsizes other ?_ <;>
            simp [hnodes', hmore, hother]
        have hcount := hrewind.used_freed (hsame.inBuffer hs.toInBuffer) hsizes
          htotal (by simp [hmid, marked])
        rw [hnodes', total_append, hused] at htotal
        rw [hmore, total_cons] at hcount htotal
        simp only [hsize] at hcount htotal
        rw [if_neg (by omega), hused] at hcount
        have hnew := length_of_total hrewind.new_tiles.size_bounds
          hrewind.new_sizes
        have hlisted := hrewind.total_eq
        rw [hrewind.nodes_eq', total_append] at hlisted
        have hseq := hrewind.new_tiles.seq_eq
        rw [hsame.packseq_eq] at hseq
        rw [fst_spaceLeft]
        omega

end UdpTransfer.Sender
