import UdpTransfer.Receiver.Coverage
import UdpTransfer.Sender.Stream
import UdpTransfer.Wire.Remoteisset

/-!
# Sender, receiver and network

The network keeps every datagram and every acknowledgement that it was ever
given, and may hand over any of them at any time, any number of times or not at
all: it loses, duplicates, delays and reorders, but does not alter.  Between the
parties it carries only full packets.  What the sender counts as acknowledged,
the receiver has.
-/

namespace UdpTransfer.Transfer

open UdpTransfer.Runs
open UdpTransfer.Wire
open UdpTransfer.Sender
open UdpTransfer.Receiver

structure State where
  sender : Sender.Session
  sbuffer : SBuffer
  /-- Every acknowledgement that the receiver sent. -/
  acks : List UInt32

inductive Event where
  /-- A call on the send buffer. -/
  | send (c : Sender.Call)
  /-- `d` arrives from `remote`; the rest is what the stack of the receiver
  holds. -/
  | arrive (d : Datagram) (remote : SockAddr) (memory : ℤ → UInt8)
      (buffer tempbuf : ℤ)
  | requestData (size : ℤ)

def start : State where
  sender := Sender.Session.start
  sbuffer := SBuffer.initHead
  acks := []

/-- What the network can bring about. -/
def enabled (t : State) : Event → Prop
  | .send (.recvACK num _) => ∃ ack ∈ t.acks, seqnumOf ack = num
  | .send _ => True
  | .arrive d _ _ _ _ =>
      (∃ sent ∈ t.sender.sent, sent.datagram = d) ∧ d.payload.length = 1000
  | .requestData _ => True

def State.step (t : State) : Event → Option State
  | .send c => (t.sender.call c).map fun s => { t with sender := s }
  | .arrive d remote memory buffer tempbuf =>
      (acknowledge t.sbuffer
        (remoteisset memory buffer tempbuf (frame remote d))).map
          fun (acks, s) => { t with sbuffer := s, acks := acks ++ t.acks }
  | .requestData size =>
      (t.sbuffer.requestData size).map fun (_, _, s) => { t with sbuffer := s }

def transfer : System State Event where
  initial t := t = start
  step t e t' := enabled t e ∧ t.step e = some t'

/-! ## What the sender counts as acknowledged -/

/-- Whatever the sender counts as acknowledged or has freed is known to be. -/
structure AckedKnown (known : ℤ → Prop) (t : Sender.Session) : Prop where
  nodes : ∀ node ∈ t.cbuffer.nodes, node.ack = 2 → known node.seqnum
  freed : ∀ num ∈ t.freed, known num

theorem Transmissions.acked {s s' : CBuffer} {sents : List Sent}
    (htrans : Transmissions s sents s') :
    ∀ node ∈ s'.nodes, node.ack = 2 → node ∈ s.nodes := by
  induction htrans with
  | nil => exact fun node hnode _ => hnode
  | snoc _ _ hsend ih =>
      intro node hnode hacked
      rw [hsend.state_eq] at hnode
      refine ih node ?_ hacked
      rw [hsend.nodes_eq]
      simp only [marked, List.mem_append, List.mem_cons] at hnode ⊢
      rcases hnode with hnode | rfl | hnode
      · exact .inl hnode
      · cases hacked
      · exact .inr (.inr hnode)

theorem AckedKnown.called {known : ℤ → Prop} {t t' : Sender.Session}
    {c : Sender.Call} (hknown : AckedKnown known t)
    (hcalled : Sender.Called t c t')
    (hack : ∀ num stop, c = .recvACK num stop → known num) :
    AckedKnown known t' := by
  obtain ⟨hnodes, hfreed⟩ := hknown
  cases hcalled with
  | addData chunk result s hadded =>
      refine ⟨?_, hfreed⟩
      intro node hnode hacked
      cases hadded with
      | accepted mid s new _ hrewind =>
          rw [hrewind.nodes_eq', List.mem_append] at hnode
          rcases hnode with hnode | hnode
          · exact hnodes node hnode hacked
          · rw [hrewind.new_ack node hnode] at hacked
            cases hacked
      | rejected mid s _ _ hrewind =>
          rw [hrewind.nodes_eq', List.append_nil] at hnode
          exact hnodes node hnode hacked
  | sendWindow clock sents s htrans =>
      exact ⟨fun node hnode hacked =>
        hnodes node (Transmissions.acked htrans node hnode hacked) hacked,
        hfreed⟩
  | recvACK num stop result freed s hacked =>
      cases hacked with
      | absent i s _ _ _ hsame _ =>
          refine ⟨?_, by simpa using hfreed⟩
          rw [hsame]
          exact hnodes
      | listed i mid s before after node freed kept new _ hmid hnum _ hmarked _
          hrewind =>
          have hlisted : ∀ other ∈ freed ++ kept, other.ack = 2 →
              known other.seqnum := by
            rw [← hrewind.nodes_eq, hmarked, marked]
            intro other hother hacked
            simp only [List.mem_append, List.mem_cons] at hother
            rcases hother with hother | rfl | hother
            · exact hnodes other (by simp [hmid, hother]) hacked
            · exact hack _ stop (by rw [hnum])
            · exact hnodes other (by simp [hmid, hother]) hacked
          constructor
          · intro other hother hacked
            rw [hrewind.nodes_eq', List.mem_append] at hother
            rcases hother with hother | hother
            · exact hlisted other (by simp [hother]) hacked
            · rw [hrewind.new_ack other hother] at hacked
              cases hacked
          · intro other hother
            rw [List.mem_append, List.mem_map] at hother
            rcases hother with hother | ⟨node, hnode, rfl⟩
            · exact hfreed other hother
            · exact hlisted node (by simp [hnode])
                (hrewind.freed_acked node hnode)
  | timerExpire bsn =>
      refine ⟨?_, hfreed⟩
      intro other hother hacked
      simp only [CBuffer.timerExpire, List.mem_map] at hother
      obtain ⟨node, hnode, rfl⟩ := hother
      split at hacked
      · cases hacked
      · rename_i hne
        rw [if_neg hne]
        exact hnodes node hnode hacked

/-! ## What the receiver has -/

/-- The receive buffer is in order and covers the numbers known to be
acknowledged. -/
structure Has (s : SBuffer) (known : ℤ → Prop) : Prop where
  merged : Merged s
  proper : Proper s.toRing.runs
  covered : ∀ num, known num → Covered s.toRing num

/-- Carrying out calls keeps what the receiver has, and what it acknowledges it
has afterwards. -/
theorem Has.acknowledge {calls : List Received} :
    ∀ {known : ℤ → Prop} {s s' : SBuffer} {acks : List UInt32}, Has s known →
      (∀ call ∈ calls, call.size = call.data.length ∧
        call.data.length ≤ 64000) →
      Wire.acknowledge s calls = some (acks, s') →
      Has s' fun num => known num ∨ ∃ ack ∈ acks, seqnumOf ack = num := by
  induction calls with
  | nil =>
      intro known s s' acks hhas _ hcalls
      cases hcalls
      exact ⟨hhas.merged, hhas.proper, fun num hknown =>
        hhas.covered num (by simpa using hknown)⟩
  | cons call calls ih =>
      intro known s s' acks hhas hsizes hcalls
      rw [List.forall_mem_cons] at hsizes
      rw [Wire.acknowledge, hsizes.1.1, Option.bind_eq_some_iff] at hcalls
      obtain ⟨⟨result, mid⟩, hadd, hcalls⟩ := hcalls
      rw [Option.map_eq_some_iff] at hcalls
      obtain ⟨⟨acks', s''⟩, hrest, heq⟩ := hcalls
      cases heq
      obtain ⟨harrival, hmerged⟩ := hhas.merged.addData hsizes.1.2 hadd
      have hmid : Has mid fun num => known num ∨
          result ≠ 0 ∧ seqnumOf call.packetnumber = num := by
        refine ⟨hmerged, hhas.proper.arrival harrival, ?_⟩
        rintro num (hknown | ⟨hresult, rfl⟩)
        · exact (hhas.covered num hknown).arrival harrival hhas.proper
        · exact covered_of_arrival harrival hhas.proper hresult
      have hlast := ih hmid hsizes.2 hrest
      refine ⟨hlast.merged, hlast.proper, fun num hknown => ?_⟩
      apply hlast.covered
      rcases hknown with hknown | ⟨ack, hack, rfl⟩
      · exact .inl (.inl hknown)
      · split at hack
        · rename_i hresult
          rcases List.mem_cons.1 hack with rfl | hack
          · exact .inl (.inr ⟨hresult, rfl⟩)
          · exact .inr ⟨ack, hack, rfl⟩
        · exact .inr ⟨ack, hack, rfl⟩

theorem Has.requestData {known : ℤ → Prop} {s s' : SBuffer}
    {size count : ℤ} {bytes : List UInt8} (hhas : Has s known)
    (hrequest : s.requestData size = some (count, bytes, s')) :
    Has s' known := by
  obtain ⟨hdelivery, hmerged⟩ := hhas.merged.requestData hrequest
  exact ⟨hmerged, hhas.proper.delivery hdelivery, fun num hknown =>
    (hhas.covered num hknown).delivery hdelivery hhas.proper⟩

/-! ## No acknowledged packet is lost -/

/-- The number has been acknowledged by the receiver. -/
def State.known (t : State) (num : ℤ) : Prop :=
  ∃ ack ∈ t.acks, seqnumOf ack = num

structure Safe (t : State) : Prop where
  window : Window t.sender.cbuffer
  acked : AckedKnown t.known t.sender
  has : Has t.sbuffer t.known

theorem safe_start : Safe start :=
  ⟨window_start, ⟨by simp [start, Sender.Session.start, CBuffer.start],
    by simp [start, Sender.Session.start]⟩,
    ⟨merged_initHead, proper_initHead, by simp [State.known, start]⟩⟩

theorem Safe.step {t t' : State} {e : Event} (hsafe : Safe t)
    (henabled : enabled t e) (hstep : t.step e = some t') : Safe t' := by
  obtain ⟨hwindow, hacked, hhas⟩ := hsafe
  cases e with
  | send c =>
      rw [State.step, Option.map_eq_some_iff] at hstep
      obtain ⟨s, hcall, rfl⟩ := hstep
      obtain ⟨hcalled, hwindow'⟩ := hwindow.called hcall
      refine ⟨hwindow', hacked.called hcalled ?_, hhas⟩
      rintro num stop rfl
      exact henabled
  | arrive d remote memory buffer tempbuf =>
      rw [State.step, Option.map_eq_some_iff] at hstep
      obtain ⟨⟨acks, s⟩, hcalls, rfl⟩ := hstep
      rw [remoteisset_full memory buffer tempbuf remote henabled.2] at hcalls
      have hhas' := hhas.acknowledge (fun call hcall => by
        split at hcall
        · rw [List.mem_singleton] at hcall
          rw [hcall, henabled.2]
          exact ⟨rfl, by decide⟩
        · cases hcall) hcalls
      have hknown : ∀ num, State.known
          { t with sbuffer := s, acks := acks ++ t.acks } num ↔
            t.known num ∨ ∃ ack ∈ acks, seqnumOf ack = num := by
        intro num
        simp only [State.known, List.mem_append]
        constructor
        · rintro ⟨ack, hack | hack, rfl⟩
          · exact .inr ⟨ack, hack, rfl⟩
          · exact .inl ⟨ack, hack, rfl⟩
        · rintro (⟨ack, hack, rfl⟩ | ⟨ack, hack, rfl⟩)
          · exact ⟨ack, .inr hack, rfl⟩
          · exact ⟨ack, .inl hack, rfl⟩
      refine ⟨hwindow, ⟨?_, ?_⟩, hhas'.merged, hhas'.proper, ?_⟩
      · intro node hnode hack
        exact (hknown _).2 (.inl (hacked.nodes node hnode hack))
      · intro num hnum
        exact (hknown _).2 (.inl (hacked.freed num hnum))
      · intro num hnum
        exact hhas'.covered num ((hknown num).1 hnum)
  | requestData size =>
      rw [State.step, Option.map_eq_some_iff] at hstep
      obtain ⟨⟨count, bytes, s⟩, hrequest, rfl⟩ := hstep
      exact ⟨hwindow, hacked, hhas.requestData hrequest⟩

theorem safe_reachable {t : State} (hreach : transfer.Reachable t) : Safe t := by
  refine hreach.invariant ?_ ?_
  · rintro t rfl
    exact safe_start
  · intro t e t' hsafe hstep
    exact hsafe.step hstep.1 hstep.2

/-- A packet that the sender has freed is at the receiver: delivered already, or
in a filled node of the ring. -/
theorem freed_received (t : State) (hreach : transfer.Reachable t) (num : ℤ)
    (hfreed : num ∈ t.sender.freed) :
    num < t.sbuffer.dstart ∨ ∃ run ∈ t.sbuffer.toRing.runs,
      run.filled = true ∧ run.firstSeq ≤ num ∧ num ≤ run.lastSeq := by
  have hsafe := safe_reachable hreach
  exact hsafe.has.covered num (hsafe.acked.freed num hfreed)

/-- The first packet finds the buffer empty, and is stored. -/
theorem initHead_addData {data : List UInt8}
    (hlength : (data.length : ℤ) = 1000) :
    ∃ s, SBuffer.initHead.addData 1 1000 data = some (1, s) := by
  have hring : SBuffer.initHead.toRing = RingBuffer.initHead :=
    SBuffer.initHead_represents.toRing_eq
  have hsound := merged_initHead.sound
  rw [hring] at hsound
  have hseek : seek RingBuffer.initHead.dstart 1 1000 []
      RingBuffer.initHead.runs = some (.placed [] _ []) := rfl
  obtain ⟨buffer, -, hadd⟩ := hsound.store hlength hseek (by decide) rfl
  rw [← hring] at hadd
  obtain ⟨s, hadd, -⟩ := merged_initHead.exists_addData hadd
  exact ⟨s, hadd⟩

theorem freed_received_first :
    ∃ t, transfer.Reachable t ∧ 1 ∈ t.sender.freed ∧
      (1 < t.sbuffer.dstart ∨ ∃ run ∈ t.sbuffer.toRing.runs,
        run.filled = true ∧ run.firstSeq ≤ 1 ∧ 1 ≤ run.lastSeq) := by
  obtain ⟨chunk, hchunk⟩ : ∃ chunk : List UInt8, (chunk.length : ℤ) = 1000 :=
    ⟨List.replicate 1000 0, by rw [List.length_replicate]; rfl⟩
  obtain ⟨added, hadd, hlisted, hpacktimes⟩ :=
    drained_start.addData (by decide) hchunk
  obtain ⟨sent, hsend, hloaded, hslots, bytes, hsent, hbytes⟩ :=
    hlisted.sendWindow (by decide) hpacktimes rfl
  obtain ⟨s, hstored⟩ := initHead_addData
    (show (bytes.length : ℤ) = 1000 by omega)
  have hcalls := remoteisset_full (fun _ => 0) 0 0 (List.Vector.replicate 16 0)
    (show (datagram 1 bytes).payload.length = 1000 from hbytes)
  rw [if_pos (by rfl)] at hcalls
  have hlisted' : transfer.Reachable { start with sender := added } :=
    .step (l := .send (.addData chunk)) (.initial rfl)
      ⟨trivial, by rw [State.step, start, hadd]; rfl⟩
  have hsent' : transfer.Reachable { start with sender := sent } :=
    hlisted'.step (l := .send (.sendWindow fun _ => ⟨0, 0⟩))
      ⟨trivial, by rw [State.step, hsend]; rfl⟩
  have harrived : transfer.Reachable
      { sender := sent, sbuffer := s, acks := [1] } := by
    refine hsent'.step (l := .arrive (datagram 1 bytes)
      (List.Vector.replicate 16 0) (fun _ => 0) 0 0) ⟨⟨⟨_, hsent, rfl⟩, hbytes⟩,
      ?_⟩
    have hack : Wire.acknowledge SBuffer.initHead
        [{ packetnumber := 1, size := 1000, data := bytes }] =
        some ([1], s) := by
      rw [Wire.acknowledge, show seqnumOf 1 = 1 by decide, hstored]
      rfl
    rw [State.step, hcalls]
    show Option.map _ (Wire.acknowledge SBuffer.initHead
      [{ packetnumber := 1, size := 1000, data := bytes }]) = _
    rw [hack]
    rfl
  obtain ⟨freed, hrecv, hfreed, -, -⟩ := hloaded.recvACK (by decide)
    (safe_reachable harrived).window hslots rfl
  have hreach : transfer.Reachable
      { sender := freed, sbuffer := s, acks := [1] } :=
    harrived.step (l := .send (.recvACK ((0 : ℕ) + 1) ⟨0, 0⟩))
      ⟨⟨1, by simp, by decide⟩, by rw [State.step, hrecv]; rfl⟩
  exact ⟨_, hreach, hfreed, freed_received _ hreach 1 hfreed⟩

end UdpTransfer.Transfer
