import UdpTransfer.Core.Runs
import UdpTransfer.Sender.Steps

/-!
# Sessions of the sender

A session calls `addData`, `sendWindow`, `recvACK` and `timerExpire` in any
order, from `initialize` on.  It records the bytes that were accepted, the
bytes of each packet when it was cut from the buffer, and what was sent.  In
every session the window is in order between calls.
-/

namespace UdpTransfer.Sender

open UdpTransfer.Memory
open UdpTransfer.Runs
open UdpTransfer.Wire
open CBuffer

structure Session where
  cbuffer : CBuffer
  /-- The chunks for which `addData` returned 1, one behind the other. -/
  accepted : List UInt8
  /-- The payloads of packets 1, 2, ..., as they were listed. -/
  packets : List (List UInt8)
  sent : List Sent
  /-- The numbers of the packets that `checkWindow` has freed. -/
  freed : List ℤ

inductive Call where
  | addData (chunk : List UInt8)
  | sendWindow (clock : ℕ → Timespec)
  | recvACK (num : ℤ) (stop : Timespec)
  | timerExpire (bsn : ℤ)

/-- The bytes of the buffer that a packet covers. -/
def payload (s : CBuffer) (node : PackNode) : List UInt8 :=
  circRead 64000 s.cirbuffer node.data node.size.toNat

/-- The payloads of the packets that came to be listed between `s` and `s'`. -/
def created (s s' : CBuffer) : List (List UInt8) :=
  (s'.nodes.filter fun node => s.packseq ≤ node.seqnum).map (payload s')

namespace Session

def start : Session where
  cbuffer := CBuffer.start
  accepted := []
  packets := []
  sent := []
  freed := []

def call (t : Session) : Call → Option Session
  | .addData chunk =>
      (t.cbuffer.addData chunk chunk.length).map fun (result, freed, s) =>
        { t with
          cbuffer := s
          accepted := if result = 1 then t.accepted ++ chunk else t.accepted
          packets := t.packets ++ created t.cbuffer s
          freed := t.freed ++ freed.map PackNode.seqnum }
  | .sendWindow clock =>
      (t.cbuffer.sendWindow clock).map fun (sents, s) =>
        { t with cbuffer := s, sent := t.sent ++ sents }
  | .recvACK num stop =>
      (t.cbuffer.recvACK num stop).map fun (_, freed, s) =>
        { t with
          cbuffer := s
          packets := t.packets ++ created t.cbuffer s
          freed := t.freed ++ freed.map PackNode.seqnum }
  | .timerExpire bsn => some { t with cbuffer := t.cbuffer.timerExpire bsn }

end Session

def sender : System Session Call where
  initial t := t = Session.start
  step t c t' := t.call c = some t'

/-- A call that returned. -/
inductive Called (t : Session) : Call → Session → Prop where
  | addData (chunk : List UInt8) (result : ℤ) (s : CBuffer) :
      Added t.cbuffer chunk result s →
      Called t (.addData chunk)
        { t with
          cbuffer := s
          accepted := if result = 1 then t.accepted ++ chunk else t.accepted
          packets := t.packets ++ created t.cbuffer s }
  | sendWindow (clock : ℕ → Timespec) (sents : List Sent) (s : CBuffer) :
      Transmissions t.cbuffer sents s →
      Called t (.sendWindow clock)
        { t with cbuffer := s, sent := t.sent ++ sents }
  | recvACK (num : ℤ) (stop : Timespec) (result : ℤ)
      (freed : List PackNode) (s : CBuffer) :
      Acked t.cbuffer num result freed s →
      Called t (.recvACK num stop)
        { t with
          cbuffer := s
          packets := t.packets ++ created t.cbuffer s
          freed := t.freed ++ freed.map PackNode.seqnum }
  | timerExpire (bsn : ℤ) :
      Called t (.timerExpire bsn)
        { t with cbuffer := t.cbuffer.timerExpire bsn }

theorem Window.called {t t' : Session} {c : Call} (hs : Window t.cbuffer)
    (hcall : t.call c = some t') : Called t c t' ∧ Window t'.cbuffer := by
  cases c with
  | addData chunk =>
      rw [Session.call, Option.map_eq_some_iff] at hcall
      obtain ⟨⟨result, freed, s⟩, hadd, rfl⟩ := hcall
      obtain ⟨rfl, hadded, hwindow⟩ := addData_added hs hadd
      simp only [List.map_nil, List.append_nil]
      exact ⟨.addData chunk result s hadded, hwindow⟩
  | sendWindow clock =>
      rw [Session.call, Option.map_eq_some_iff] at hcall
      obtain ⟨⟨sents, s⟩, hsend, rfl⟩ := hcall
      obtain ⟨htrans, hwindow⟩ := sendWindow_transmissions hs hsend
      exact ⟨.sendWindow clock sents s htrans, hwindow⟩
  | recvACK num stop =>
      rw [Session.call, Option.map_eq_some_iff] at hcall
      obtain ⟨⟨result, freed, s⟩, hrecv, rfl⟩ := hcall
      obtain ⟨hacked, hwindow⟩ := recvACK_acked hs hrecv
      exact ⟨.recvACK num stop result freed s hacked, hwindow⟩
  | timerExpire bsn =>
      cases hcall
      exact ⟨.timerExpire bsn, timerExpire_window hs bsn⟩

theorem window_reachable {t : Session} (hreach : sender.Reachable t) :
    Window t.cbuffer := by
  refine hreach.invariant (I := fun t => Window t.cbuffer) ?_ ?_
  · rintro t rfl
    exact window_start
  · intro t c t' hs hcall
    exact (hs.called hcall).2

/-- An invariant of every call that returns holds in every session. -/
theorem session_invariant {guard : Session → Call → Prop} {I : Session → Prop}
    (hstart : I Session.start)
    (hcall : ∀ t c t', guard t c → Window t.cbuffer → Window t'.cbuffer →
      Called t c t' → I t → I t')
    {t : Session} (hreach : (sender.restrict guard).Reachable t) : I t := by
  refine hreach.invariant_with (J := fun t => Window t.cbuffer) ?_ ?_ ?_
  · intro t hreach
    exact window_reachable hreach.of_restrict
  · rintro t rfl
    exact hstart
  · intro t c t' hs hinv hstep
    obtain ⟨hcalled, hs'⟩ := hs.called hstep.2
    exact hcall t c t' hstep.1 hs hs' hcalled hinv

/-! ## The window invariant -/

/-- The window is in order, clause by clause. -/
structure WindowInvariant (s : CBuffer) : Prop where
  consecutive : ∀ (i : ℕ) (hi : i < s.nodes.length),
    s.nodes[i].seqnum = s.packseq - s.nodes.length + i
  sizes : ∀ node ∈ s.nodes, 1 ≤ node.size ∧ node.size ≤ 1000
  first_data : ∀ node ∈ s.nodes.head?, node.data = s.dstart
  next_data : s.nodes.IsChain fun node next =>
    next.data = (node.data + node.size) % 64000
  sizes_sum : (s.nodes.map PackNode.size).sum = min (64000 - s.spaceLeft.1) 20000
  dstart_bounds : 0 ≤ s.dstart ∧ s.dstart < 64000
  dend_bounds : 0 ≤ s.dend ∧ s.dend ≤ 64000
  first_ack : ∀ node ∈ s.nodes.head?, node.ack ≠ 2

theorem Window.invariant {s : CBuffer} (hs : Window s) : WindowInvariant s := by
  obtain ⟨first, htiles⟩ := hs.tiles
  have hseq := htiles.seq_eq
  refine
    { consecutive := fun i hi => ?_
      sizes := htiles.size_bounds
      first_data := ?_
      next_data := htiles.isChain
      sizes_sum := ?_
      dstart_bounds := ⟨hs.dstart_nonneg, hs.dstart_lt⟩
      dend_bounds := ⟨hs.dend_nonneg, hs.dend_le⟩
      first_ack := hs.head_ack }
  · rw [htiles.getElem_seqnum i hi]
    omega
  · intro node hnode
    cases hnodes : s.nodes with
    | nil => simp [hnodes] at hnode
    | cons other nodes =>
        rw [hnodes] at htiles hnode
        simp only [List.head?_cons, Option.mem_some_iff] at hnode
        subst hnode
        exact htiles.1
  · rw [spaceLeft_eq, sub_sub_cancel, ← hs.total_eq, total]

/-- Between calls the window of the sender is in order. -/
theorem windowInvariant_reachable (t : Session)
    (hreach : sender.Reachable t) : WindowInvariant t.cbuffer :=
  (window_reachable hreach).invariant

/-- The session after one byte has been added. -/
def oneByte : Session where
  cbuffer := { CBuffer.start with
    cirbuffer := write CBuffer.start.cirbuffer 0 [7]
    nodes := [{ seqnum := 1, data := 0, size := 1, ack := 0 }]
    dend := 1
    windowend := 1
    packseq := 2
    isEmpty := 0 }
  accepted := [7]
  packets := [[7]]
  sent := []
  freed := []

theorem addData_oneByte :
    CBuffer.start.addData [7] ([7] : List UInt8).length =
      some (1, [], oneByte.cbuffer) := by
  have hcut : newPackNodes 0 1 1 = some ([⟨1, 0, 1, 0⟩], 2) := by
    simp [newPackNodes, signedInt, cmod]
  simp [CBuffer.addData, CBuffer.start, spaceLeft, CBuffer.store, memcpyIn,
    checkWindow, freeAcked, fillWindow, disttowindow, cmod, nextData, hcut,
    oneByte]

theorem start_addData : Session.start.call (.addData [7]) = some oneByte := by
  change Option.map _ (CBuffer.start.addData [7] ([7] : List UInt8).length) = _
  rw [addData_oneByte]
  simp [Session.start, CBuffer.start, created, payload, oneByte]
  decide

theorem oneByte_reachable : sender.Reachable oneByte :=
  .step (.initial rfl) start_addData

theorem windowInvariant_oneByte : WindowInvariant oneByte.cbuffer :=
  windowInvariant_reachable oneByte oneByte_reachable

end UdpTransfer.Sender
