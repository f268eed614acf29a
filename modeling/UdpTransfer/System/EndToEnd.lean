import UdpTransfer.Receiver.Stream
import UdpTransfer.System.Transfer

/-!
# From end to end

What `requestData` hands out at the receiver is compared with what `addData`
accepted at the sender, in runs of the parties and the network.  The two known
ways in which a party spoils the stream are ruled out step by step: the sender
does not drain its buffer while `dend` stands at 64000, and a late packet is not
written over bytes that are still to be delivered.  Then the receiver hands out
the bytes that the sender accepted, from the first on and without a gap,
whatever the network loses, repeats or reorders.
-/

namespace UdpTransfer.EndToEnd

open UdpTransfer.Memory
open UdpTransfer.Runs
open UdpTransfer.Wire
open UdpTransfer.Sender
open UdpTransfer.Receiver
open UdpTransfer.Transfer

/-- The parties, and the bytes that `requestData` has handed out. -/
structure State where
  transfer : Transfer.State
  out : List UInt8

/-- The bytes that an event hands out. -/
def handed (t : Transfer.State) : Event → List UInt8
  | .send _ => []
  | .arrive _ _ _ _ _ => []
  | .requestData size =>
      ((t.sbuffer.requestData size).map fun (_, bytes, _) => bytes).getD []

def delivery : System State Event where
  initial s := s = { transfer := Transfer.start, out := [] }
  step s e s' :=
    transfer.step s.transfer e s'.transfer ∧
      s'.out = s.out ++ handed s.transfer e

/-- A late packet changes no byte that is still to be delivered. -/
def ArrivesHarmlessly (r : RingBuffer) (d : Datagram) : Prop :=
  seqnumOf d.packnum < r.dstart → ∀ before placed after,
    seek r.dstart (seqnumOf d.packnum) 1000 [] r.runs =
      some (.placed before placed after) →
    Harmless r placed.node d.payload

/-- The condition on a step: no empty chunk is added to an empty buffer, the
sender does not drain its buffer at its very end, and late packets are
harmless. -/
def undisturbed (s : State) : Event → Prop
  | .send c => (∀ chunk, c = .addData chunk → chunk = [] →
      0 < used s.transfer.sender.cbuffer) ∧ ¬ drains s.transfer.sender c
  | .arrive d _ _ _ _ => ArrivesHarmlessly s.transfer.sbuffer.toRing d
  | .requestData _ => True

/-! ## An empty chunk -/

theorem used_eq_of_empty {s mid : CBuffer} (hstored : Sender.Stored s [] mid)
    (hs : InBuffer s) (hpos : 0 < used s) : used mid = used s := by
  have hle := hstored.used_le
  have hbounds := used_bounds hstored.inBuffer
  have hend := dend_modEq hs
  have hend' := dend_modEq hstored.inBuffer
  have hmod := hstored.dend_mod
  rw [hstored.dstart_eq] at hend'
  simp only [List.length_nil, Nat.cast_zero, add_zero, Int.ModEq] at *
  omega

/-- An empty chunk behind stored bytes adds nothing to the stream. -/
theorem streamed_store_empty {packets : List (List UInt8)}
    {accepted : List UInt8} {s mid : CBuffer} {done : ℕ}
    (hstream : Streamed packets accepted s done)
    (hstored : Sender.Stored s [] mid) (hs : InBuffer s) (hpos : 0 < used s) :
    Streamed packets accepted mid done := by
  have hused := used_eq_of_empty hstored hs hpos
  refine ⟨?_, ?_, ?_⟩
  · rw [hused, hstream.length_eq]
  · rw [hused, hstored.dstart_eq, ← hstream.stored]
    apply circRead_congr
    intro i _
    apply hstored.write.outside
    intro j hj
    exact absurd hj (Nat.not_lt_zero j)
  · rw [hstored.nodes_eq, hstream.cut]

theorem streamed_addData {packets : List (List UInt8)}
    {accepted chunk : List UInt8} {s s' : CBuffer} {done : ℕ} {result : ℤ}
    (hstream : Streamed packets accepted s done) (hs : Window s)
    (hs' : Window s') (hchunk : chunk = [] → 0 < used s)
    (hadded : Added s chunk result s') :
    Streamed (packets ++ created s s')
      (if result = 1 then accepted ++ chunk else accepted) s' done := by
  by_cases hempty : chunk = []
  · subst hempty
    cases hadded with
    | accepted mid s' new hstored hrewind =>
        obtain ⟨first, htiles⟩ := hstored.tiles hs
        rw [if_pos rfl, List.append_nil,
          hrewind.created_eq ⟨first, _, htiles⟩ hstored.packseq_eq]
        have hmid := streamed_store_empty hstream hstored hs.toInBuffer
          (hchunk rfl)
        rw [← hstored.nodes_eq] at hrewind
        refine hmid.rewind hrewind htiles.size_bounds ?_ hs'.toInBuffer
        rw [total_nil, sub_zero, (hrewind.keep hstored.inBuffer).2]
    | rejected mid s' hroom _ _ =>
        have hbounds := used_bounds hs.toInBuffer
        rw [List.length_nil] at hroom
        omega
  · exact hstream.addData hs hs' hempty hadded

/-! ## Payloads that fit the packets -/

/-- The payload function agrees with the full packets that have been cut. -/
def Fits (packets : List (List UInt8)) (payload : ℤ → Payload) : Prop :=
  ∀ num bytes, packet packets num = some bytes → bytes.length = 1000 →
    (payload num).toList = bytes

theorem Fits.of_append {packets new : List (List UInt8)} {payload : ℤ → Payload}
    (hfits : Fits (packets ++ new) payload) : Fits packets payload := by
  intro num bytes hpacket hlength
  exact hfits num bytes (packet_append new hpacket) hlength

/-- The full packets, and `byte` throughout for any other. -/
def filler (packets : List (List UInt8)) (byte : UInt8) (num : ℤ) : Payload :=
  if hfull : ((packet packets num).getD []).length = 1000 then
    (⟨(packet packets num).getD [], hfull⟩ : List.Vector UInt8 1000)
  else
    List.Vector.replicate 1000 byte

theorem fits_filler (packets : List (List UInt8)) (byte : UInt8) :
    Fits packets (filler packets byte) := by
  intro num bytes hpacket hlength
  have hbytes : (packet packets num).getD [] = bytes := by
    rw [hpacket, Option.getD_some]
  have hfull : ((packet packets num).getD []).length = 1000 := by
    rw [hbytes, hlength]
  have hfiller : filler packets byte num =
      ⟨(packet packets num).getD [], hfull⟩ := dif_pos hfull
  rw [hfiller]
  exact hbytes

/-- Up to the first packet that is not full. -/
theorem exists_full_front (packets : List (List UInt8)) :
    ∃ full rest, packets = full ++ rest ∧
      (∀ bytes ∈ full, bytes.length = 1000) ∧
      ∀ bytes ∈ rest.head?, bytes.length ≠ 1000 := by
  induction packets with
  | nil => exact ⟨[], [], rfl, by simp, by simp⟩
  | cons bytes packets ih =>
      obtain ⟨full, rest, rfl, hfull, hrest⟩ := ih
      by_cases hlength : bytes.length = 1000
      · refine ⟨bytes :: full, rest, rfl, ?_, hrest⟩
        rw [List.forall_mem_cons]
        exact ⟨hlength, hfull⟩
      · exact ⟨[], bytes :: (full ++ rest), rfl, by simp, by simpa using hlength⟩

/-- Behind the full packets in front, the stream is whatever fills it. -/
theorem streamByte_filler {full rest : List (List UInt8)}
    (hrest : ∀ bytes ∈ rest.head?, bytes.length ≠ 1000) (byte : UInt8) :
    streamByte (filler (full ++ rest) byte) (1000 * full.length) = byte := by
  have hpacket : packet (full ++ rest) (full.length + 1) = rest.head? := by
    rw [packet, if_pos (by omega), show ((full.length : ℤ) + 1 - 1).toNat =
      full.length by omega, List.getElem?_append_right le_rfl, Nat.sub_self,
      List.head?_eq_getElem?]
  have hnot : ¬ ((packet (full ++ rest) (full.length + 1)).getD []).length =
      1000 := by
    rw [hpacket]
    cases hhead : rest.head? with
    | none => decide
    | some bytes => exact hrest bytes hhead
  have hfiller : filler (full ++ rest) byte (full.length + 1) =
      List.Vector.replicate 1000 byte := dif_neg hnot
  rw [streamByte, show (1000 * (full.length : ℤ)) / 1000 = full.length by omega,
    show (1000 * (full.length : ℤ) % 1000).toNat = 0 by omega, hfiller]
  rfl

theorem stream_filler {full rest : List (List UInt8)}
    (hfull : ∀ bytes ∈ full, bytes.length = 1000) (byte : UInt8) :
    stream (filler (full ++ rest) byte) full.length = full.flatten := by
  suffices h : ∀ k ≤ full.length,
      stream (filler (full ++ rest) byte) k = (full.take k).flatten by
    simpa using h full.length le_rfl
  intro k
  induction k with
  | zero => exact fun _ => rfl
  | succ k ih =>
      intro hk
      have hlt : k < full.length := hk
      have hpacket : packet (full ++ rest) (k + 1) = some full[k] := by
        rw [packet, if_pos (by omega), show ((k : ℤ) + 1 - 1).toNat = k by omega,
          List.getElem?_append_left hlt, List.getElem?_eq_getElem hlt]
      rw [stream_succ, ih hlt.le, List.take_add_one,
        List.getElem?_eq_getElem hlt, List.flatten_append,
        fits_filler (full ++ rest) byte (k + 1) full[k] hpacket
          (hfull _ (List.getElem_mem hlt))]
      simp

/-- What is the stream of every payload function that fits the packets is a
prefix of the packets. -/
theorem prefix_of_fits {packets : List (List UInt8)} {out : List UInt8}
    (hout : ∀ payload, Fits packets payload →
      out = streamFrom payload 0 out.length) : out <+: packets.flatten := by
  obtain ⟨full, rest, rfl, hfull, hrest⟩ := exists_full_front packets
  have hbyte : ∀ byte (i : ℕ) (hi : i < out.length),
      out[i] = streamByte (filler (full ++ rest) byte) i := by
    intro byte i hi
    have hsame := List.getElem_of_eq (hout _ (fits_filler _ byte)) hi
    simpa [streamFrom] using hsame
  have hle : out.length ≤ 1000 * full.length := by
    by_contra hlt
    have hlt : 1000 * full.length < out.length := not_le.mp hlt
    have hzero := hbyte 0 _ hlt
    have hone := hbyte 1 _ hlt
    push_cast at hzero hone
    rw [streamByte_filler hrest] at hzero hone
    rw [hzero] at hone
    exact absurd hone (by decide)
  rw [List.flatten_append, ← stream_filler hfull 0]
  refine List.IsPrefix.trans (List.prefix_iff_eq_take.mpr ?_)
    (List.prefix_append _ _)
  apply List.ext_getElem
  · rw [List.length_take, length_stream, Nat.min_eq_left hle]
  · intro i hi hi'
    rw [List.getElem_take, getElem_stream, hbyte 0 i hi]

/-! ## Every step -/

/-- The record of the sender is right, the packets are the stream of the
accepted bytes, and the ring holds that stream from where `out` ends, for all
that is known of it. -/
structure Delivers (s : State) : Prop where
  recorded : Recorded s.transfer.sender
  streamed : ∃ done, Streamed s.transfer.sender.packets
    s.transfer.sender.accepted s.transfer.sender.cbuffer done
  faithful : ∀ payload, Fits s.transfer.sender.packets payload →
    Faithful payload s.transfer.sbuffer.toRing s.out

theorem delivers_start : Delivers { transfer := Transfer.start, out := [] } := by
  refine ⟨recorded_start, ⟨0, streamed_start⟩, fun payload _ => ?_⟩
  rw [show Transfer.start.sbuffer = SBuffer.initHead from rfl,
    SBuffer.initHead_represents.toRing_eq]
  exact faithful_initHead

theorem packets_append {t t' : Sender.Session} {c : Sender.Call}
    (hcalled : Sender.Called t c t') : ∃ new, t'.packets = t.packets ++ new := by
  cases hcalled with
  | addData chunk result s _ => exact ⟨_, rfl⟩
  | sendWindow clock sents s _ => exact ⟨[], (List.append_nil _).symm⟩
  | recvACK num stop result freed s _ => exact ⟨_, rfl⟩
  | timerExpire bsn => exact ⟨[], (List.append_nil _).symm⟩

theorem streamed_called {t t' : Sender.Session} {c : Sender.Call}
    (hstream : ∃ done, Streamed t.packets t.accepted t.cbuffer done)
    (hs : Window t.cbuffer) (hs' : Window t'.cbuffer)
    (hchunk : ∀ chunk, c = .addData chunk → chunk = [] → 0 < used t.cbuffer)
    (hdrain : ¬ drains t c) (hcalled : Sender.Called t c t') :
    ∃ done, Streamed t'.packets t'.accepted t'.cbuffer done := by
  obtain ⟨done, hstream⟩ := hstream
  cases hcalled with
  | addData chunk result s hadded =>
      exact ⟨done, streamed_addData hstream hs hs' (hchunk chunk rfl) hadded⟩
  | sendWindow clock sents s htrans =>
      obtain ⟨hsame, hshape⟩ := htrans.sameBytes
      exact ⟨done, hstream.mark hsame hshape⟩
  | recvACK num stop result freed s hacked =>
      exact hstream.recvACK hs hs' hdrain hacked
  | timerExpire bsn =>
      exact ⟨done, hstream.mark ⟨rfl, rfl, rfl, rfl, rfl⟩
        (shape_timerExpire _ _)⟩

/-- A datagram that was sent is that of the packet with its number. -/
theorem packet_of_sent {t : Sender.Session} (hrecorded : Recorded t)
    {d : Datagram} (hsent : ∃ sent ∈ t.sent, sent.datagram = d) :
    crc32 crcpoly d.payload = d.crc32 ∧ seqnumOf d.packnum < intMax ∧
      packet t.packets (seqnumOf d.packnum) = some d.payload := by
  obtain ⟨sent, hsent, rfl⟩ := hsent
  obtain ⟨bytes, hpacket, hdatagram⟩ := hrecorded.sent sent hsent
  have hcount := hrecorded.count
  have hbound := hrecorded.packseq_le
  have hrange := packet_isSome hpacket
  have hnum : seqnumOf sent.datagram.packnum = sent.bsn := by
    rw [hdatagram]
    exact seqnumOf_ofInt (by omega) (by omega)
  rw [hnum, hdatagram]
  refine ⟨rfl, ?_, hpacket⟩
  rw [intMax]
  omega

/-- A datagram that arrives leads to one call of `addData`, and to an
acknowledgement if that does not return 0. -/
theorem arrive_cases {t t' : Transfer.State} (hrecorded : Recorded t.sender)
    (hmerged : Merged t.sbuffer) {d : Datagram} {remote : SockAddr}
    {memory : ℤ → UInt8} {buffer tempbuf : ℤ}
    (henabled : enabled t (.arrive d remote memory buffer tempbuf))
    (hstep : t.step (.arrive d remote memory buffer tempbuf) = some t') :
    ∃ result sbuffer,
      Arrival t.sbuffer.toRing (seqnumOf d.packnum) d.payload result
        sbuffer.toRing ∧
      t' = { t with
        sbuffer := sbuffer
        acks := (if result ≠ 0 then [d.packnum] else []) ++ t.acks } := by
  obtain ⟨hcrc, -, -⟩ := packet_of_sent hrecorded henabled.1
  rw [Transfer.State.step, Option.map_eq_some_iff] at hstep
  obtain ⟨⟨acks, sbuffer⟩, hcalls, rfl⟩ := hstep
  rw [acknowledge_full henabled.2 hcrc, Option.map_eq_some_iff] at hcalls
  obtain ⟨⟨result, sbuffer⟩, hadd, heq⟩ := hcalls
  cases heq
  have hsize : ((d.payload.length : ℕ) : ℤ) = 1000 := by
    rw [henabled.2]
    rfl
  rw [← hsize] at hadd
  obtain ⟨harrival, -⟩ := hmerged.addData (by rw [henabled.2]; decide) hadd
  exact ⟨result, sbuffer, harrival, rfl⟩

theorem Delivers.step {s s' : State} {e : Event} (hdelivers : Delivers s)
    (hsafe : Safe s.transfer) (hguard : undisturbed s e)
    (hstep : delivery.step s e s') : Delivers s' := by
  obtain ⟨t, out⟩ := s
  obtain ⟨t', out'⟩ := s'
  obtain ⟨⟨henabled, hstep⟩, hout⟩ := hstep
  simp only at henabled hstep hout
  subst hout
  cases e with
  | send c =>
      rw [Transfer.State.step, Option.map_eq_some_iff] at hstep
      obtain ⟨sender, hcall, rfl⟩ := hstep
      obtain ⟨hcalled, hwindow'⟩ := hsafe.window.called hcall
      obtain ⟨new, hnew⟩ := packets_append hcalled
      refine ⟨hdelivers.recorded.called hsafe.window hcalled,
        streamed_called hdelivers.streamed hsafe.window hwindow' hguard.1
          hguard.2 hcalled, ?_⟩
      intro payload hfits
      rw [handed, List.append_nil]
      apply hdelivers.faithful payload
      simp only at hfits
      rw [hnew] at hfits
      exact hfits.of_append
  | arrive d remote memory buffer tempbuf =>
      obtain ⟨-, hmax, hpacket⟩ :=
        packet_of_sent hdelivers.recorded henabled.1
      obtain ⟨result, sbuffer, harrival, rfl⟩ :=
        arrive_cases hdelivers.recorded hsafe.has.merged henabled hstep
      refine ⟨hdelivers.recorded, hdelivers.streamed, ?_⟩
      intro payload hfits
      rw [handed, List.append_nil]
      have hbytes := hfits _ _ hpacket henabled.2
      rw [← hbytes] at harrival
      refine (hdelivers.faithful payload hfits).arrival
        ⟨offSentinel_of_lt hmax, ?_⟩ harrival
      intro hlate before placed after hseek
      rw [hbytes]
      exact hguard hlate before placed after hseek
  | requestData size =>
      rw [Transfer.State.step, Option.map_eq_some_iff] at hstep
      obtain ⟨⟨count, bytes, sbuffer⟩, hrequest, rfl⟩ := hstep
      obtain ⟨hdelivery, -⟩ := hsafe.has.merged.requestData hrequest
      refine ⟨hdelivers.recorded, hdelivers.streamed, ?_⟩
      intro payload hfits
      rw [handed, hrequest, Option.map_some, Option.getD_some]
      exact (hdelivers.faithful payload hfits).delivery hdelivery

theorem transfer_reachable {s : State} (hreach : delivery.Reachable s) :
    transfer.Reachable s.transfer := by
  induction hreach with
  | initial hinit =>
      rw [hinit]
      exact .initial rfl
  | step _ hstep ih => exact ih.step hstep.1

theorem delivers_reachable {s : State}
    (hreach : (delivery.restrict undisturbed).Reachable s) : Delivers s := by
  refine hreach.invariant_with (J := fun s => Safe s.transfer) ?_ ?_ ?_
  · intro s hreach
    exact safe_reachable (transfer_reachable hreach.of_restrict)
  · rintro s rfl
    exact delivers_start
  · intro s e s' hsafe hdelivers hstep
    exact hdelivers.step hsafe hstep.1 hstep.2

theorem Delivers.prefix_accepted {s : State} (hdelivers : Delivers s) :
    s.out <+: s.transfer.sender.accepted := by
  obtain ⟨done, hstream⟩ := hdelivers.streamed
  have hpackets : s.out <+: s.transfer.sender.packets.flatten :=
    prefix_of_fits fun payload hfits =>
      (hdelivers.faithful payload hfits).out_eq
  rw [hstream.cut] at hpackets
  exact hpackets.trans (List.take_prefix _ _)

/-! ## One packet all the way -/

/-- Packet 1 is all that the receiver holds, and of it the first `off` bytes have
been handed out. -/
structure Holding (off : ℤ) (s : SBuffer) : Prop where
  merged : Merged s
  ring : ∃ buffer, s.toRing =
    { buffer := buffer, dstart := 1, dend := 1,
      runs := [⟨1, 1, off, 1000 - off, true⟩, ⟨2, 64, 1000, 63000, false⟩] }

theorem exists_holding {data : List UInt8} (hlength : data.length = 1000) :
    ∃ stored, (∀ memory buffer tempbuf remote, acknowledge SBuffer.initHead
        (remoteisset memory buffer tempbuf (frame remote (datagram 1 data))) =
          some ([1], stored)) ∧
      Holding 0 stored := by
  have hring : SBuffer.initHead.toRing = RingBuffer.initHead :=
    SBuffer.initHead_represents.toRing_eq
  have hsound := merged_initHead.sound
  rw [hring] at hsound
  have hseek : seek RingBuffer.initHead.dstart 1 1000 []
      RingBuffer.initHead.runs = some (.placed [] _ []) := rfl
  have hsize : (data.length : ℤ) = 1000 := by
    rw [hlength]
    rfl
  obtain ⟨buffer, -, hadd⟩ := hsound.store hsize hseek (by decide) rfl
  have hadd : RingBuffer.initHead.addData 1 1000 data = some (1,
      { buffer := buffer, dstart := 1, dend := 1,
        runs := [⟨1, 1, 0, 1000, true⟩, ⟨2, 64, 1000, 63000, false⟩] }) := hadd
  rw [← hring] at hadd
  obtain ⟨stored, hstored, hfull⟩ := merged_initHead.exists_addData hadd
  obtain ⟨-, hmerged⟩ := merged_initHead.addData
    (show data.length ≤ 64000 by omega) (by rwa [hsize])
  refine ⟨stored, fun memory place tempbuf remote => ?_, hmerged, buffer, hfull⟩
  have hcalls := @acknowledge_full (datagram 1 data) hlength rfl
    SBuffer.initHead memory place tempbuf remote
  rw [hcalls]
  change (SBuffer.initHead.addData (seqnumOf 1) 1000 data).map _ = _
  rw [show seqnumOf 1 = 1 by decide, hstored]
  rfl

theorem Holding.part {off : ℤ} {s : SBuffer} (hholding : Holding off s)
    (hoff : 0 ≤ off) {k : ℕ} (hk : off + k < 1000) :
    ∃ bytes s', s.requestData k = some ((k : ℤ), bytes, s') ∧
      bytes.length = k ∧ Holding (off + k) s' := by
  obtain ⟨hmerged, buffer, hring⟩ := hholding
  have hcopy : memcpyOut 64000 buffer off k =
      some (Memory.read buffer off.toNat k) := by
    rw [memcpyOut, if_pos (by omega), Int.toNat_natCast]
  have hrequest : s.toRing.requestData k =
      some ((k : ℤ), Memory.read buffer off.toNat k,
        { buffer := buffer, dstart := 1, dend := 1,
          runs := [⟨1, 1, off + k, 1000 - off - k, true⟩,
            ⟨2, 64, 1000, 63000, false⟩] }) := by
    rw [hring, RingBuffer.requestData]
    simp only [and_self, if_true]
    rw [if_neg (by omega), SBuffer.fetchBytes, if_neg (by simp only; omega)]
    simp only [hcopy, Option.map_some]
  obtain ⟨s', hrequest', hring'⟩ := hmerged.exists_requestData hrequest
  refine ⟨_, s', hrequest', length_read _ _ _,
    (hmerged.requestData hrequest').2, buffer, ?_⟩
  rw [hring', sub_sub]

/-- The rest is handed out at once, and the hole behind it comes to `head`. -/
theorem Holding.rest {off size : ℤ} {s : SBuffer} {cur : Extent}
    {rest : List Extent} (hholding : Holding off s)
    (hoff : 0 ≤ off ∧ off ≤ 1000) (hsize : 1000 - off ≤ size)
    (hmerge : mergeRuns 2 [⟨2, 64, 1000, 63000, false⟩,
      ⟨1, 1, off, 1000 - off, false⟩] = some (cur :: rest))
    (hhole : cur.filled = false) :
    ∃ bytes s', s.requestData size = some (1000 - off, bytes, s') ∧
      (bytes.length : ℤ) = 1000 - off ∧
      ∃ s'', s'.requestData size = some (0, [], s'') := by
  obtain ⟨hmerged, buffer, hring⟩ := hholding
  have hrequest := @requestData_whole s.toRing size
    ⟨1, 1, off, 1000 - off, true⟩ [⟨2, 64, 1000, 63000, false⟩] (cur :: rest)
    (by rw [hring]) rfl (by rw [hring]) hsize (by simp only; omega)
    (by simp only; omega) hmerge
  obtain ⟨s', hrequest', hring'⟩ := hmerged.exists_requestData hrequest
  obtain ⟨-, hmerged'⟩ := hmerged.requestData hrequest'
  have hnothing : s'.toRing.requestData size = some (0, [], s'.toRing) := by
    rw [hring', RingBuffer.requestData]
    simp only [hhole, Bool.false_eq_true, false_and, if_false]
  obtain ⟨s'', hrest, -⟩ := hmerged'.exists_requestData hnothing
  refine ⟨_, s', hrequest', ?_, s'', hrest⟩
  rw [length_circRead]
  simp only
  omega

/-- A chunk of 1000 bytes has been added, sent, stored, acknowledged and handed
out, and the sender has freed its packet. -/
theorem exists_exchanged : ∃ s, (delivery.restrict undisturbed).Reachable s ∧
    s.out.length = 1000 ∧ s.transfer.sender.cbuffer.spaceLeft.1 = 64000 ∧
    ∃ rest, s.transfer.sbuffer.requestData 1000 = some (0, [], rest) := by
  obtain ⟨chunk, hchunk⟩ : ∃ chunk : List UInt8, (chunk.length : ℤ) = 1000 :=
    ⟨List.replicate 1000 0, by rw [List.length_replicate]; rfl⟩
  obtain ⟨added, hadd, hlisted, hpacktimes⟩ :=
    drained_start.addData (by decide) hchunk
  obtain ⟨sent, hsend, hloaded, hslots, bytes, hsent, hbytes⟩ :=
    hlisted.sendWindow (by decide) hpacktimes rfl
  obtain ⟨stored, hstored, hholding⟩ := exists_holding hbytes
  obtain ⟨handed, delivered, hrequest, hhanded, hnothing⟩ :=
    hholding.rest (by decide) (le_refl (1000 : ℤ)) rfl rfl
  have hempty : chunk ≠ [] := by
    rintro rfl
    cases hchunk
  have hadded : (delivery.restrict undisturbed).Reachable
      ⟨{ Transfer.start with sender := added }, []⟩ :=
    .step (l := .send (.addData chunk)) (.initial rfl)
      ⟨⟨fun other heq hnil => by cases heq; exact absurd hnil hempty, id⟩,
        ⟨trivial, by rw [Transfer.State.step, Transfer.start, hadd]; rfl⟩, rfl⟩
  have hsended : (delivery.restrict undisturbed).Reachable
      ⟨{ Transfer.start with sender := sent }, []⟩ :=
    hadded.step (l := .send (.sendWindow fun _ => ⟨0, 0⟩))
      ⟨⟨by simp, id⟩,
        ⟨trivial, by rw [Transfer.State.step, hsend]; rfl⟩, rfl⟩
  have harrived : (delivery.restrict undisturbed).Reachable
      ⟨{ sender := sent, sbuffer := stored, acks := [1] }, []⟩ := by
    refine hsended.step (l := .arrive (datagram 1 bytes)
      (List.Vector.replicate 16 0) (fun _ => 0) 0 0)
      ⟨?_, ⟨⟨⟨_, hsent, rfl⟩, hbytes⟩, ?_⟩, rfl⟩
    · intro hlate
      rw [show Transfer.start.sbuffer = SBuffer.initHead from rfl,
        SBuffer.initHead_represents.toRing_eq] at hlate
      exact absurd (show (1 : ℤ) < 1 from hlate) (by decide)
    · rw [Transfer.State.step, show Transfer.start.sbuffer = SBuffer.initHead
        from rfl, hstored]
      rfl
  have hhandedOut : (delivery.restrict undisturbed).Reachable
      ⟨{ sender := sent, sbuffer := delivered, acks := [1] }, handed⟩ := by
    refine harrived.step (l := .requestData 1000) ⟨trivial, ⟨trivial, ?_⟩, ?_⟩
    · rw [Transfer.State.step, hrequest]
      rfl
    · rw [EndToEnd.handed, hrequest]
      rfl
  obtain ⟨freed, hrecv, -, hdrained, -⟩ := hloaded.recvACK (by decide)
    (safe_reachable (transfer_reachable harrived.of_restrict)).window hslots rfl
  have hfreed : (delivery.restrict undisturbed).Reachable
      ⟨{ sender := freed, sbuffer := delivered, acks := [1] }, handed⟩ := by
    refine hhandedOut.step (l := .send (.recvACK ((0 : ℕ) + 1) ⟨0, 0⟩))
      ⟨⟨by simp, ?_⟩, ⟨⟨1, by simp, by decide⟩, ?_⟩, ?_⟩
    · rintro ⟨hdend, -⟩
      rw [hloaded.dend_eq] at hdend
      exact absurd hdend (by decide)
    · rw [Transfer.State.step, hrecv]
      rfl
    · rw [EndToEnd.handed, List.append_nil]
  have hdrained := hdrained (by decide)
  refine ⟨_, hfreed, by simp only; omega, ?_, hnothing⟩
  simp only [CBuffer.spaceLeft, hdrained.dstart_eq, hdrained.dend_eq,
    hdrained.isEmpty_eq, lt_irrefl, if_false, if_true]

/-- What the receiver hands out is a prefix of what the sender accepted. -/
theorem out_prefix_accepted (s : State)
    (hreach : (delivery.restrict undisturbed).Reachable s) :
    s.out <+: s.transfer.sender.accepted :=
  (delivers_reachable hreach).prefix_accepted

theorem out_prefix_accepted_exchanged :
    ∃ s, (delivery.restrict undisturbed).Reachable s ∧ s.out.length = 1000 ∧
      s.out <+: s.transfer.sender.accepted := by
  obtain ⟨s, hreach, hlength, -⟩ := exists_exchanged
  exact ⟨s, hreach, hlength, out_prefix_accepted s hreach⟩

end UdpTransfer.EndToEnd
