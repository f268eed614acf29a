import UdpTransfer.Core.Writes
import UdpTransfer.Sender.Finality

/-!
# The `packtimes` entries

`sendWindow` gives every packet that it sends the first entry that is off.  An
entry keeps the number of its packet until it is given to another, also when it
is off, and `recvACK` looks for the number with no bound on the search.  A
history records which entries were written, in order, and the sizes of the
chunks that were accepted.
-/

namespace UdpTransfer.Sender

open UdpTransfer.Memory
open UdpTransfer.Runs
open UdpTransfer.Wire
open UdpTransfer.Writes
open CBuffer

/-- One place of the walk of `sendWindow`, recording the entry it writes. -/
def writeAt (clock : ℕ → Timespec) (state : List (ℕ × ℤ) × CBuffer) (i : ℕ) :
    List (ℕ × ℤ) × CBuffer :=
  match sendAt clock ([], state.2) i,
      state.2.packtimes.findIdx? fun slot => slot.on = 0 with
  | some (sent :: _, s), some slot => (state.1 ++ [(slot, sent.bsn)], s)
  | _, _ => state

/-- The entries that a call writes, with their packet numbers. -/
def slotsTaken (s : CBuffer) : Call → List (ℕ × ℤ)
  | .sendWindow clock =>
      ((List.range s.nodes.length).foldl (writeAt clock) ([], s)).1
  | _ => []

/-- The size of the chunk that a call stores. -/
def chunkTaken (s : CBuffer) : Call → List ℕ
  | .addData chunk =>
      match s.addData chunk chunk.length with
      | some (result, _) => if result = 1 then [chunk.length] else []
      | none => []
  | _ => []

structure History where
  session : Session
  /-- The entries written so far. -/
  writes : List (ℕ × ℤ)
  /-- The sizes of the chunks for which `addData` returned 1. -/
  chunks : List ℕ

namespace History

def start : History where
  session := Session.start
  writes := []
  chunks := []

def call (h : History) (c : Call) : Option History :=
  (h.session.call c).map fun t =>
    { session := t
      writes := h.writes ++ slotsTaken h.session.cbuffer c
      chunks := h.chunks ++ chunkTaken h.session.cbuffer c }

end History

def recorder : System History Call where
  initial h := h = History.start
  step h c h' := h.call c = some h'

theorem History.call_eq_some {h h' : History} {c : Call} :
    h.call c = some h' ↔ h.session.call c = some h'.session ∧
      h'.writes = h.writes ++ slotsTaken h.session.cbuffer c ∧
      h'.chunks = h.chunks ++ chunkTaken h.session.cbuffer c := by
  rw [History.call, Option.map_eq_some_iff]
  constructor
  · rintro ⟨t, hcall, rfl⟩
    exact ⟨hcall, rfl, rfl⟩
  · rintro ⟨hcall, hwrites, hchunks⟩
    refine ⟨h'.session, hcall, ?_⟩
    rw [← hwrites, ← hchunks]

theorem session_reachable {h : History} (hreach : recorder.Reachable h) :
    sender.Reachable h.session := by
  induction hreach with
  | initial hinit =>
      rw [hinit]
      exact .initial rfl
  | step _ hstep ih => exact ih.step (History.call_eq_some.1 hstep).1

/-- Every session has a history. -/
theorem exists_history {t : Session} (hreach : sender.Reachable t) :
    ∃ h, recorder.Reachable h ∧ h.session = t := by
  induction hreach with
  | initial hinit => exact ⟨History.start, .initial rfl, hinit.symm⟩
  | @step _ t' c _ hstep ih =>
      obtain ⟨h, hrecord, rfl⟩ := ih
      exact ⟨_, hrecord.step (l := c) (History.call_eq_some.2
        ⟨hstep, rfl, rfl⟩ : h.call c = some ⟨t', _, _⟩), rfl⟩

/-! ## The writes of sendWindow -/

/-- Packets sent one after the other, with the entries they are given. -/
inductive Writings (s : CBuffer) : List (ℕ × ℤ) → CBuffer → Prop where
  | nil : Writings s [] s
  | snoc {writes : List (ℕ × ℤ)} {s' s'' : CBuffer} {sent : Sent}
      {before : List PackNode} {node : PackNode} {after : List PackNode}
      {slot : ℕ} {clock : Timespec} :
      Writings s writes s' → Window s' →
      Transmits s' sent before node after slot clock s'' →
      Writings s (writes ++ [(slot, node.seqnum)]) s''

/-- One place of the walk: nothing happens, or a packet is sent. -/
theorem sendAt_cases {clock : ℕ → Timespec} {sents sents' : List Sent}
    {s s' : CBuffer} {i : ℕ} (hs : Window s)
    (hat : sendAt clock (sents, s) i = some (sents', s')) :
    s' = s ∧ (∀ writes, writeAt clock (writes, s) i = (writes, s)) ∨
      ∃ sent before node after slot,
        Transmits s sent before node after slot (clock i) s' ∧
        ∀ writes, writeAt clock (writes, s) i =
          (writes ++ [(slot, node.seqnum)], s') := by
  rw [sendAt] at hat
  split at hat
  · rename_i hnone
    cases hat
    refine .inl ⟨rfl, fun writes => ?_⟩
    rw [writeAt, sendAt, hnone]
  · rename_i current hcurrent
    split at hat
    · rename_i hack
      cases hat
      refine .inl ⟨rfl, fun writes => ?_⟩
      rw [writeAt, sendAt, hcurrent]
      simp only [if_pos hack]
    · rename_i hack
      rw [Option.map_eq_some_iff] at hat
      obtain ⟨⟨sent, s₁⟩, hnode, heq⟩ := hat
      cases heq
      obtain ⟨before, after, slot, hsend⟩ :=
        sendNode_transmits hs hcurrent hack hnode
      refine .inr ⟨sent, before, current, after, slot, hsend, fun writes => ?_⟩
      rw [writeAt, sendAt, hcurrent]
      simp only [if_neg hack, hnode, hsend.slot_off, Option.map_some,
        List.nil_append, hsend.sent_eq]

/-- Part of the walk of `sendWindow`. -/
theorem foldlM_writings {s s' : CBuffer} {clock : ℕ → Timespec}
    {sents : List Sent} (hs : Window s) (places : List ℕ)
    (hfold : places.foldlM (sendAt clock) ([], s) = some (sents, s')) :
    Writings s (places.foldl (writeAt clock) ([], s)).1 s' ∧ Window s' := by
  suffices hall : ∀ (places : List ℕ) (sents₀ : List Sent)
      (writes₀ : List (ℕ × ℤ)) (s₀ : CBuffer), Writings s writes₀ s₀ →
      Window s₀ → places.foldlM (sendAt clock) (sents₀, s₀) =
        some (sents, s') →
      Writings s (places.foldl (writeAt clock) (writes₀, s₀)).1 s' ∧
        Window s' from
    hall places [] [] s .nil hs hfold
  intro places
  induction places with
  | nil =>
      intro sents₀ writes₀ s₀ hwritings hs₀ hfold
      cases hfold
      exact ⟨hwritings, hs₀⟩
  | cons i places ih =>
      intro sents₀ writes₀ s₀ hwritings hs₀ hfold
      rw [List.foldlM_cons, Option.bind_eq_bind, Option.bind_eq_some_iff]
        at hfold
      obtain ⟨⟨sents₁, s₁⟩, hat, hfold⟩ := hfold
      rw [List.foldl_cons]
      rcases sendAt_cases hs₀ hat with
        ⟨rfl, hwrite⟩ | ⟨sent, before, node, after, slot, htransmits, hwrite⟩
      · rw [hwrite]
        exact ih _ _ _ hwritings hs₀ hfold
      · rw [hwrite]
        exact ih _ _ _ (hwritings.snoc hs₀ htransmits)
          (htransmits.window hs₀) hfold

/-! ## What the entries hold -/

/-- There are twenty entries, and each holds the number last written to it. -/
structure Slots (packtimes : List RttPack) (writes : List (ℕ × ℤ)) : Prop where
  length_eq : packtimes.length = 20
  places : ∀ write ∈ writes, write.1 < 20
  bsn_eq : ∀ i slot, packtimes[i]? = some slot → slot.bsn = held 0 writes i

theorem slots_start : Slots CBuffer.start.packtimes [] := by
  refine ⟨rfl, by simp, fun i slot hslot => ?_⟩
  rw [CBuffer.start, List.getElem?_replicate] at hslot
  split at hslot
  · cases hslot
    rfl
  · cases hslot

variable {packtimes : List RttPack} {writes : List (ℕ × ℤ)}

/-- An entry is written. -/
theorem Slots.set (hslots : Slots packtimes writes) {k : ℕ}
    (hplace : k < packtimes.length) (num on : ℤ) (clock : Timespec) :
    Slots (packtimes.set k { bsn := num, on := on, timestart := clock })
      (writes ++ [(k, num)]) := by
  have hlength := hslots.length_eq
  refine ⟨by rw [List.length_set, hlength], ?_, fun i slot hslot => ?_⟩
  · intro write hwrite
    rcases List.mem_append.1 hwrite with hwrite | hwrite
    · exact hslots.places write hwrite
    · rw [List.mem_singleton.1 hwrite]
      simp only
      omega
  rw [held_concat]
  rw [List.getElem?_set] at hslot
  split at hslot
  · rename_i hplace
    rw [if_pos hplace]
    cases hslot
    rfl
  · rename_i hplace
    rw [if_neg hplace]
    exact hslots.bsn_eq i slot hslot

/-- Switching entries off leaves their numbers. -/
theorem Slots.congr {packtimes' : List RttPack}
    (hslots : Slots packtimes writes)
    (hbsn : packtimes'.map RttPack.bsn = packtimes.map RttPack.bsn) :
    Slots packtimes' writes := by
  have hlength := congrArg List.length hbsn
  rw [List.length_map, List.length_map] at hlength
  refine ⟨hlength.trans hslots.length_eq, hslots.places, fun i slot hslot => ?_⟩
  have hplace := congrArg (·[i]?) hbsn
  simp only [List.getElem?_map, hslot, Option.map_some] at hplace
  obtain ⟨slot', hslot', hsame⟩ := Option.map_eq_some_iff.1 hplace.symm
  rw [← hsame]
  exact hslots.bsn_eq i slot' hslot'

theorem map_bsn_modify (packtimes : List RttPack) (i : ℕ) :
    (packtimes.modify i fun slot => { slot with on := 0 }).map RttPack.bsn =
      packtimes.map RttPack.bsn := by
  apply List.ext_getElem?
  intro j
  rw [List.getElem?_map, List.getElem?_map, List.getElem?_modify]
  cases packtimes[j]? with
  | none => rfl
  | some slot =>
      simp only [Option.map_eq_map, Option.map_some]
      split <;> rfl

theorem Acked.packtimes_eq {s s' : CBuffer} {num result : ℤ}
    {freed : List PackNode} (hacked : Acked s num result freed s') :
    ∃ i, s.packtimes.findIdx? (fun slot => slot.bsn = num) = some i ∧
      s'.packtimes = s.packtimes.modify i fun slot => { slot with on := 0 } := by
  cases hacked with
  | absent i s' hslot _ _ _ hpacktimes => exact ⟨i, hslot, hpacktimes⟩
  | listed i mid s' before after node freed kept new hslot _ _ _ _ hpacktimes
      hrewind =>
      exact ⟨i, hslot, by rw [hrewind.packtimes_eq, hpacktimes]⟩

theorem Added.packtimes_eq {s s' : CBuffer} {data : List UInt8} {result : ℤ}
    (hadded : Added s data result s') : s'.packtimes = s.packtimes := by
  cases hadded with
  | accepted mid s' new hstored hrewind =>
      rw [hrewind.packtimes_eq, hstored.packtimes_eq]
  | rejected mid s' _ hmid hrewind =>
      rw [hrewind.packtimes_eq, hmid, (touched_spaceLeft s).packtimes_eq]

theorem map_bsn_off (packtimes : List RttPack) (bsn : ℤ) :
    (packtimes.map fun slot =>
        if slot.bsn = bsn then { slot with on := 0 } else slot).map
      RttPack.bsn = packtimes.map RttPack.bsn := by
  rw [List.map_map]
  apply List.map_congr_left
  intro slot _
  simp only [Function.comp_apply]
  split <;> rfl

/-- An invariant of the buffer and the writes that every call keeps, packet by
packet. -/
theorem history_invariant {I : CBuffer → List (ℕ × ℤ) → Prop}
    (hstart : I CBuffer.start [])
    (hadd : ∀ s chunk result s' writes, Window s → Added s chunk result s' →
      I s writes → I s' writes)
    (hsend : ∀ s sent before node after slot clock s' writes, Window s →
      Transmits s sent before node after slot clock s' → I s writes →
      I s' (writes ++ [(slot, node.seqnum)]))
    (hack : ∀ s num result freed s' writes, Window s →
      Acked s num result freed s' → I s writes → I s' writes)
    (hexpire : ∀ s bsn writes, Window s → I s writes →
      I (s.timerExpire bsn) writes)
    {h : History} (hreach : recorder.Reachable h) :
    I h.session.cbuffer h.writes := by
  refine hreach.invariant_with (I := fun h => I h.session.cbuffer h.writes)
    (J := fun h => Window h.session.cbuffer) ?_ ?_ ?_
  · exact fun h hreach => window_reachable (session_reachable hreach)
  · rintro h rfl
    exact hstart
  · intro h c h' hs hinv hstep
    obtain ⟨hcall, hwrites, -⟩ := History.call_eq_some.1 hstep
    rw [hwrites]
    cases c with
    | addData chunk =>
        rw [Session.call, Option.map_eq_some_iff] at hcall
        obtain ⟨⟨result, freed, s⟩, hleft, heq⟩ := hcall
        rw [← heq]
        simpa [slotsTaken] using
          hadd _ _ _ _ _ hs (addData_added hs hleft).2.1 hinv
    | sendWindow clock =>
        rw [Session.call, Option.map_eq_some_iff] at hcall
        obtain ⟨⟨sents, s⟩, hleft, heq⟩ := hcall
        rw [← heq]
        have hwritings := (foldlM_writings hs _ hleft).1
        change I s _
        clear heq hleft hwrites
        rw [slotsTaken]
        generalize (List.foldl (writeAt clock) ([], h.session.cbuffer) _).1 =
          taken at hwritings ⊢
        induction hwritings with
        | nil => rwa [List.append_nil]
        | snoc _ hmid hnext ih =>
            rw [← List.append_assoc]
            exact hsend _ _ _ _ _ _ _ _ _ hmid hnext ih
    | recvACK num stop =>
        rw [Session.call, Option.map_eq_some_iff] at hcall
        obtain ⟨⟨result, freed, s⟩, hleft, heq⟩ := hcall
        rw [← heq]
        simpa [slotsTaken] using
          hack _ _ _ _ _ _ hs (recvACK_acked hs hleft).1 hinv
    | timerExpire bsn =>
        rw [← Option.some.inj hcall]
        simpa [slotsTaken] using hexpire _ bsn _ hs hinv

theorem slots_reachable {h : History} (hreach : recorder.Reachable h) :
    Slots h.session.cbuffer.packtimes h.writes := by
  refine history_invariant (I := fun s writes => Slots s.packtimes writes)
    slots_start ?_ ?_ ?_ ?_ hreach
  · intro s chunk result s' writes _ hadded hslots
    rwa [hadded.packtimes_eq]
  · intro s sent before node after slot clock s' writes _ hsend hslots
    rw [hsend.state_eq]
    exact hslots.set (List.findIdx?_eq_some_iff_getElem.1 hsend.slot_off).1 _ _ _
  · intro s num result freed s' writes _ hacked hslots
    obtain ⟨i, -, hpacktimes⟩ := hacked.packtimes_eq
    rw [hpacktimes]
    exact hslots.congr (map_bsn_modify s.packtimes i)
  · intro s bsn writes _ hslots
    exact hslots.congr (map_bsn_off s.packtimes bsn)

/-! ## The search of recvACK -/

/-- The search for the entry of packet `num` stops inside the array. -/
def FindsEntry (s : CBuffer) (num : ℤ) : Prop :=
  ∃ i < 20, s.packtimes.findIdx? (fun slot => slot.bsn = num) = some i

theorem Slots.findsEntry_iff {s : CBuffer} (hslots : Slots s.packtimes writes)
    {num : ℤ} (hnum : num ≠ 0) :
    FindsEntry s num ↔ ∃ slot, Stands writes slot num := by
  have hlength := hslots.length_eq
  constructor
  · rintro ⟨i, -, hfind⟩
    obtain ⟨hi, hbsn, -⟩ := List.findIdx?_eq_some_iff_getElem.1 hfind
    rw [decide_eq_true_eq] at hbsn
    refine ⟨i, (held_eq_iff hnum).1 ?_⟩
    rw [← hbsn]
    exact (hslots.bsn_eq i _ (List.getElem?_eq_getElem hi)).symm
  · rintro ⟨i, hstands⟩
    have hi : i < s.packtimes.length := by
      obtain ⟨before, after, hwrites, -⟩ := hstands
      have hplace := hslots.places (i, num) (by simp [hwrites])
      simp only at hplace
      omega
    have hbsn := hslots.bsn_eq i _ (List.getElem?_eq_getElem hi)
    rw [hstands.held_eq] at hbsn
    have hsome : (s.packtimes.findIdx?
        fun slot => slot.bsn = num).isSome = true := by
      rw [List.findIdx?_isSome, List.any_eq_true]
      exact ⟨_, List.getElem_mem hi, by simpa using hbsn⟩
    obtain ⟨j, hfind⟩ := Option.isSome_iff_exists.1 hsome
    have hj := (List.findIdx?_eq_some_iff_getElem.1 hfind).1
    exact ⟨j, by omega, hfind⟩

/-- In every run, the search for the number of a packet that has been sent stops
inside the array exactly when the entry of one of its transmissions has not
been written since. -/
theorem findsEntry_iff_stands (h : History) (hreach : recorder.Reachable h)
    (num : ℤ) (hsent : ∃ sent ∈ h.session.sent, sent.bsn = num) :
    FindsEntry h.session.cbuffer num ↔ ∃ slot, Stands h.writes slot num := by
  have hrec := recorded_reachable (session_reachable hreach).restrict_true
  obtain ⟨sent, hmem, rfl⟩ := hsent
  obtain ⟨bytes, hbytes, -⟩ := hrec.sent sent hmem
  have hrange := packet_isSome hbytes
  exact (slots_reachable hreach).findsEntry_iff (by omega)

theorem findsEntry_iff_stands_twoBytes :
    ∃ h, recorder.Reachable h ∧ h.session = twoBytesSent 1 1 ∧
      (FindsEntry h.session.cbuffer 1 ↔ ∃ slot, Stands h.writes slot 1) := by
  obtain ⟨h, hreach, hsession⟩ := exists_history twoBytesSent_reachable
  refine ⟨h, hreach, hsession, findsEntry_iff_stands h hreach 1 ?_⟩
  rw [hsession]
  exact ⟨_, List.mem_cons_self, rfl⟩

/-! ## An acknowledgement that comes twice -/

/-- Packet 1 has been sent, acknowledged and freed. -/
def oneByteFreed : Session :=
  { oneByteSent ⟨1, 0, ⟨0, 0⟩⟩ 2 [{ bsn := 1, datagram := datagram 1 [7] }] with
    cbuffer := { oneByte.cbuffer with
      packtimes := ⟨1, 0, ⟨0, 0⟩⟩ :: CBuffer.start.packtimes.tail
      nodes := []
      dstart := 1
      isEmpty := 1 }
    freed := [1] }

theorem oneByteSent_recvACK :
    (oneByteSent ⟨1, 1, ⟨0, 0⟩⟩ 1
      [{ bsn := 1, datagram := datagram 1 [7] }]).call (.recvACK 1 ⟨0, 0⟩) =
      some oneByteFreed := by
  have htimes : (oneByteSent ⟨1, 1, ⟨0, 0⟩⟩ 1
      [{ bsn := 1, datagram := datagram 1 [7] }]).cbuffer.timeComps
        (elapsed ⟨0, 0⟩ ⟨0, 0⟩) =
      (oneByteSent ⟨1, 1, ⟨0, 0⟩⟩ 1 []).cbuffer := by
    simp [timeComps, elapsed, oneByteSent, oneByte, CBuffer.start]
  have hrecv : (oneByteSent ⟨1, 1, ⟨0, 0⟩⟩ 1
      [{ bsn := 1, datagram := datagram 1 [7] }]).cbuffer.recvACK 1 ⟨0, 0⟩ =
      some (1, [⟨1, 0, 1, 2⟩], oneByteFreed.cbuffer) := by
    change Option.map _ (checkWindow
      { (oneByteSent ⟨1, 1, ⟨0, 0⟩⟩ 1
          [{ bsn := 1, datagram := datagram 1 [7] }]).cbuffer.timeComps
            (elapsed ⟨0, 0⟩ ⟨0, 0⟩) with
        packtimes := oneByteFreed.cbuffer.packtimes
        nodes := [⟨1, 0, 1, 2⟩] }) = _
    rw [htimes]
    rfl
  rw [Session.call, hrecv]
  rfl

/-- Packet 2 has been listed behind it, and sent with the same entry. -/
def nextByte (slot : RttPack) (ack : ℤ) (sent : List Sent) : Session :=
  { oneByteFreed with
    cbuffer := { oneByteFreed.cbuffer with
      cirbuffer := write oneByteFreed.cbuffer.cirbuffer 1 [8]
      packtimes := slot :: CBuffer.start.packtimes.tail
      nodes := [{ seqnum := 2, data := 1, size := 1, ack := ack }]
      dend := 2
      windowend := 2
      packseq := 3
      isEmpty := 0 }
    accepted := [7, 8]
    packets := [[7], [8]]
    sent := sent }

theorem oneByteFreed_addData :
    oneByteFreed.call (.addData [8]) =
      some (nextByte ⟨1, 0, ⟨0, 0⟩⟩ 0 oneByteFreed.sent) := by
  have hcut : newPackNodes 1 2 1 = some ([⟨2, 1, 1, 0⟩], 3) := by
    simp [newPackNodes, signedInt, cmod]
  have hadd : oneByteFreed.cbuffer.addData [8] ([8] : List UInt8).length =
      some (1, [], (nextByte ⟨1, 0, ⟨0, 0⟩⟩ 0 []).cbuffer) := by
    simp [CBuffer.addData, CBuffer.start, spaceLeft, CBuffer.store, memcpyIn,
      checkWindow, freeAcked, fillWindow, disttowindow, cmod, nextData, hcut,
      oneByte, oneByteFreed, nextByte, oneByteSent]
  change Option.map _
    (oneByteFreed.cbuffer.addData [8] ([8] : List UInt8).length) = _
  rw [hadd]
  simp [oneByteFreed, created, payload, nextByte, oneByteSent, oneByte]
  decide

theorem nextByte_reachable :
    sender.Reachable (nextByte ⟨2, 1, ⟨0, 0⟩⟩ 1
      [{ bsn := 1, datagram := datagram 1 [7] },
        { bsn := 2, datagram := datagram 2 [8] }]) := by
  have hsent : sender.Reachable (oneByteSent ⟨1, 1, ⟨0, 0⟩⟩ 1
      [{ bsn := 1, datagram := datagram 1 [7] }]) :=
    oneByte_reachable.step (oneByteSent_sendWindow ⟨0, 0, ⟨0, 0⟩⟩ [] rfl)
  exact ((hsent.step oneByteSent_recvACK).step oneByteFreed_addData).step
    (l := .sendWindow fun _ => ⟨0, 0⟩) rfl

/-- Packet 1 is acknowledged and packet 2 is given its entry.  When the
acknowledgement of packet 1 arrives again, no entry bears its number. -/
theorem not_findsEntry :
    ¬ ∀ t, sender.Reachable t → ∀ sent ∈ t.sent,
      FindsEntry t.cbuffer sent.bsn := by
  intro hclaim
  obtain ⟨i, -, hfind⟩ := hclaim _ nextByte_reachable
    { bsn := 1, datagram := datagram 1 [7] } List.mem_cons_self
  have hnone : (nextByte ⟨2, 1, ⟨0, 0⟩⟩ 1
      [{ bsn := 1, datagram := datagram 1 [7] },
        { bsn := 2, datagram := datagram 2 [8] }]).cbuffer.packtimes.findIdx?
      (fun slot => slot.bsn = 1) = none := by
    decide
  rw [hnone] at hfind
  cases hfind

end UdpTransfer.Sender
