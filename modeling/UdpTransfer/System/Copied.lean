import UdpTransfer.Receiver.InOrder
import UdpTransfer.System.Copy

/-!
# The copy

If `ftps` comes to its end, it has written the file that `ftpc` sent, under its
name.  It has come to its end once everything has been handed on.
-/

namespace UdpTransfer.Copy

open UdpTransfer.Memory
open UdpTransfer.Runs
open UdpTransfer.Wire
open UdpTransfer.Sender
open UdpTransfer.Sender.CBuffer
open UdpTransfer.Receiver

/-! ## What ftps has taken -/

/-- What a step can do at the side of `tcpds` and `ftps`. -/
theorem step_cases {creates : List UInt8 → Bool} {s s' : State} {e : Event}
    (hstep : s.step creates e = some s') :
    (s'.sbuffer = s.sbuffer ∧ s'.ftps = s.ftps ∧ s'.out = s.out) ∨
    (∃ d remote memory buffer tempbuf acks,
      e = .arrive d remote memory buffer tempbuf ∧
      acknowledge s.sbuffer
        (remoteisset memory buffer tempbuf (frame remote d)) =
          some (acks, s'.sbuffer) ∧
      s'.ftps = s.ftps ∧ s'.out = s.out) ∨
    ∃ size count bytes, s.ftps.request = some size ∧
      s.sbuffer.requestData size.toNat = some (count, bytes, s'.sbuffer) ∧
      s.ftps.step creates bytes = some s'.ftps ∧ s'.out = s.out ++ bytes := by
  cases e with
  | arrive d remote memory buffer tempbuf =>
      obtain ⟨⟨acks, sbuffer⟩, hcalls, rfl⟩ := Option.map_eq_some_iff.1 hstep
      exact .inr (.inl ⟨d, remote, memory, buffer, tempbuf, acks, rfl, hcalls,
        rfl, rfl⟩)
  | hostisset =>
      obtain ⟨size, hrequest, hstep⟩ := Option.bind_eq_some_iff.1 hstep
      obtain ⟨⟨count, bytes, sbuffer⟩, hanswer, hstep⟩ :=
        Option.bind_eq_some_iff.1 hstep
      obtain ⟨ftps, htaken, rfl⟩ := Option.map_eq_some_iff.1 hstep
      exact .inr (.inr ⟨size, count, bytes, hrequest, hanswer, htaken, rfl⟩)
  | ftpcSend =>
      rw [State.step] at hstep
      split at hstep <;> cases hstep
      exact .inl ⟨rfl, rfl, rfl⟩
  | recvHost temp =>
      rw [State.step] at hstep
      split at hstep
      · cases hstep
      · obtain ⟨t, -, rfl⟩ := Option.map_eq_some_iff.1 hstep
        exact .inl ⟨rfl, rfl, rfl⟩
  | ftpcRecv =>
      cases hstep
      exact .inl ⟨rfl, rfl, rfl⟩
  | lose =>
      cases hstep
      exact .inl ⟨rfl, rfl, rfl⟩
  | timerExpire exp =>
      cases hstep
      exact .inl ⟨rfl, rfl, rfl⟩
  | proceed =>
      cases hstep
      exact .inl ⟨rfl, rfl, rfl⟩
  | retry temp =>
      obtain ⟨t, -, rfl⟩ := Option.map_eq_some_iff.1 hstep
      exact .inl ⟨rfl, rfl, rfl⟩
  | recvFails =>
      obtain ⟨t, -, rfl⟩ := Option.map_eq_some_iff.1 hstep
      exact .inl ⟨rfl, rfl, rfl⟩
  | recvACK ack stop =>
      obtain ⟨t, -, rfl⟩ := Option.map_eq_some_iff.1 hstep
      exact .inl ⟨rfl, rfl, rfl⟩
  | sendWindow clock =>
      obtain ⟨⟨sents, cbuffer⟩, -, rfl⟩ := Option.map_eq_some_iff.1 hstep
      exact .inl ⟨rfl, rfl, rfl⟩

theorem holds_step {creates : List UInt8 → Bool} {s s' : State} {e : Event}
    (hholds : Ftps.Progress.Holds creates s.out s.ftps)
    (hstep : s.step creates e = some s') :
    Ftps.Progress.Holds creates s'.out s'.ftps := by
  rcases step_cases hstep with ⟨-, hftps, hout⟩ |
    ⟨-, -, -, -, -, -, -, -, hftps, hout⟩ | ⟨-, -, bytes, -, -, hftps, hout⟩
  · rw [hftps, hout]
    exact hholds
  · rw [hftps, hout]
    exact hholds
  · rw [hout]
    exact hholds.step hftps

/-- What is known of a run: the datagrams of `ftpc` come in order, `ftps` has
taken what was handed out, and between them the stream is kept. -/
structure Copies (creates : List UInt8 → Bool) (datagrams : List (List UInt8))
    (s : State) : Prop where
  inOrder : InOrder datagrams s
  holds : Ftps.Progress.Holds creates s.out s.ftps
  couples : ∃ d, Orderly d ∧ Couples s d

variable {creates : List UInt8 → Bool} {filename file : List UInt8}
  {datagrams : List (List UInt8)} {s : State}

theorem copies_start (datagrams : List (List UInt8)) :
    Copies creates datagrams (start datagrams) where
  inOrder := inOrder_start datagrams
  holds := Ftps.Progress.holds_start
  couples := ⟨{ transfer := Transfer.start, out := [] }, .initial rfl,
    ⟨rfl, rfl, rfl, rfl, rfl, rfl⟩⟩

theorem copies_reachable
    (hreach : ((copy creates filename file).restrict undisturbed).Reachable s) :
    ∃ datagrams, Ftpc.main filename file = some datagrams ∧
      Copies creates datagrams s := by
  refine hreach.invariant (I := fun s => ∃ datagrams,
    Ftpc.main filename file = some datagrams ∧ Copies creates datagrams s) ?_ ?_
  · rintro s ⟨datagrams, hmain, rfl⟩
    exact ⟨datagrams, hmain, copies_start datagrams⟩
  · rintro s e s' ⟨datagrams, hmain, hcopies⟩ ⟨hguard, henabled, hstep⟩
    have hshort : ∀ datagram ∈ datagrams, datagram.length ≤ 1000 := by
      rw [Ftpc.main, Ftpc.sendFile_eq_pieces] at hmain
      split at hmain
      · obtain rfl := Option.some.inj hmain
        exact fun datagram => Ftpc.length_of_mem_pieces
      · cases hmain
    obtain ⟨d, horderly, hcouples⟩ := hcopies.couples
    exact ⟨datagrams, hmain,
      hcopies.inOrder.step hshort hguard henabled hstep,
      holds_step hcopies.holds hstep,
      hcouples.step horderly hcopies.inOrder hguard henabled hstep⟩

/-- The checksums of the packets that have been sent are right. -/
theorem Copies.crc32_eq (hcopies : Copies creates datagrams s) {d : Datagram}
    (hsent : ∃ sent ∈ s.sent, sent.datagram = d) :
    crc32 crcpoly d.payload = d.crc32 := by
  obtain ⟨d', horderly, hcouples⟩ := hcopies.couples
  rw [← hcouples.sent] at hsent
  exact (EndToEnd.packet_of_sent
    (EndToEnd.delivers_reachable horderly).recorded hsent).1

theorem flatten_main (hmain : Ftpc.main filename file = some datagrams) :
    datagrams.flatten = Ftps.header (Ftpc.fileSize file)
      (Ftpc.nameField filename) ++ file := by
  rw [Ftpc.main, Ftpc.sendFile_eq_pieces] at hmain
  split at hmain
  · obtain rfl := Option.some.inj hmain
    exact Ftpc.flatten_pieces _
  · cases hmain

/-- What can have come to `ftps` is the beginning of the header and the file. -/
theorem InOrder.out_prefix (hinorder : InOrder datagrams s)
    (hmain : Ftpc.main filename file = some datagrams) {d : EndToEnd.State}
    (horderly : Orderly d)
    (haccepted : d.transfer.sender.accepted = s.tcpdc.accepted.flatten) :
    d.out <+: Ftps.header (Ftpc.fileSize file) (Ftpc.nameField filename) ++
      file := by
  have hout := (EndToEnd.delivers_reachable horderly).prefix_accepted
  rw [haccepted] at hout
  rw [← flatten_main hmain]
  obtain ⟨rest, hrest⟩ := hinorder.accepted_prefix
  refine hout.trans ⟨rest.flatten, ?_⟩
  rw [← List.flatten_append, hrest]

theorem Copies.out_prefix (hcopies : Copies creates datagrams s)
    (hmain : Ftpc.main filename file = some datagrams) :
    s.out <+: Ftps.header (Ftpc.fileSize file) (Ftpc.nameField filename) ++
      file := by
  obtain ⟨d, horderly, hcouples⟩ := hcopies.couples
  rw [← hcouples.out]
  exact hcopies.inOrder.out_prefix hmain horderly hcouples.accepted

/-- Where a file is written. -/
def target (filename : List UInt8) : List UInt8 :=
  Ftps.folder ++ filename

/-- The name in the header is the name of the file, if it is short enough. -/
theorem received_nameField (hnul : ∀ byte ∈ filename, byte ≠ 0)
    (hlength : (Ftps.received (Ftpc.nameField filename)).length < 20) :
    Ftps.received (Ftpc.nameField filename) = target filename := by
  simp only [Ftps.received, target, List.append_cancel_left_eq]
  rw [Ftps.received, List.length_append] at hlength
  rcases Nat.lt_or_ge filename.length 20 with hshort | hlong
  · rw [Ftpc.nameField, List.take_append, List.take_of_length_le hshort.le,
      List.takeWhile_append_of_pos (by simpa using hnul), List.take_replicate,
      List.takeWhile_replicate]
    simp
  · rw [Ftpc.nameField, List.take_append_of_le_length hlong,
      List.takeWhile_eq_self_iff.2, List.length_take] at hlength
    · omega
    · intro byte hbyte
      simpa using hnul byte (List.mem_of_mem_take hbyte)

theorem toInt_fileSize (hsize : file.length < 2147483648) :
    (Ftpc.fileSize file).toInt32.toInt = file.length := by
  have hfile : (Ftpc.fileSize file).toNat = file.length := by
    rw [Ftpc.fileSize, UInt32.toNat_ofNat', Nat.mod_eq_of_lt (by omega)]
  rw [Ftps.toInt_toInt32, hfile, if_pos hsize]

/-- When `ftps` has come to its end, it has got the header and the file. -/
theorem Copies.out_eq (hcopies : Copies creates datagrams s)
    (hmain : Ftpc.main filename file = some datagrams)
    (hsize : file.length < 2147483648) {name written : List UInt8}
    (hclosed : s.ftps = .closed name written) :
    s.out = Ftps.header (Ftpc.fileSize file) (Ftpc.nameField filename) ++ file ∧
      written = file ∧ name = Ftps.received (Ftpc.nameField filename) ∧
      (Ftps.received (Ftpc.nameField filename)).length < 20 := by
  have hholds := hcopies.holds
  rw [hclosed] at hholds
  cases hholds with
  | closed name size head written hout hhead hannounces hreached =>
      obtain ⟨rest, hrest⟩ := hcopies.out_prefix hmain
      rw [hout, List.append_assoc] at hrest
      obtain ⟨hheader, hbody⟩ := List.append_inj hrest
        (hhead.trans (Ftps.length_header (Ftpc.length_nameField _)).symm)
      obtain ⟨rfl, rfl, hshort⟩ := hannounces.of_header hheader
      rw [toInt_fileSize hsize] at hreached
      have hlength := congrArg List.length hbody
      rw [List.length_append] at hlength
      have hnil : rest = [] := List.eq_nil_of_length_eq_zero (by omega)
      rw [hnil, List.append_nil] at hbody
      exact ⟨by rw [hout, hheader, hbody], hbody, rfl, hshort⟩

theorem Copies.eq_file (hcopies : Copies creates datagrams s)
    (hmain : Ftpc.main filename file = some datagrams)
    (hnul : ∀ byte ∈ filename, byte ≠ 0) (hsize : file.length < 2147483648)
    {name written : List UInt8} (hclosed : s.ftps = .closed name written) :
    name = target filename ∧ written = file := by
  obtain ⟨-, hwritten, hname, hshort⟩ := hcopies.out_eq hmain hsize hclosed
  exact ⟨hname.trans (received_nameField hnul hshort), hwritten⟩

/-- Once `ftpc` is done, nothing waits in the send buffer and a request would
get nothing, `ftps` has come to its end. -/
theorem Copies.closed (hcopies : Copies creates datagrams s)
    (hmain : Ftpc.main filename file = some datagrams)
    (hnul : ∀ byte ∈ filename, byte ≠ 0) (hsize : file.length < 2147483648)
    (hunsent : s.unsent = []) (hidle : s.waits = false)
    (hspace : s.tcpdc.cbuffer.spaceLeft.1 = 64000)
    (hnothing : ∃ count rest,
      s.sbuffer.requestData 25 = some (count, [], rest)) :
    s.ftps = .closed (target filename) file := by
  have hinorder := hcopies.inOrder
  have hout : s.out = datagrams.flatten := by
    obtain ⟨d, horderly, hcouples⟩ := hcopies.couples
    have hsame := (EndToEnd.delivers_reachable horderly).eq_accepted
      (Transfer.safe_reachable
        (EndToEnd.transfer_reachable horderly.of_restrict))
      (EndToEnd.completes_reachable horderly)
      (by rw [hcouples.cbuffer]; exact hspace)
      (show (0 : ℤ) < 25 by decide) (by rw [hcouples.sbuffer]; exact hnothing)
    rw [hcouples.out, hcouples.accepted,
      hinorder.accepted_eq hunsent hidle] at hsame
    exact hsame
  rw [flatten_main hmain] at hout
  have hheader := @Ftps.length_header (Ftpc.fileSize file) _
    (Ftpc.length_nameField filename)
  have hlength := congrArg List.length hout
  rw [List.length_append, hheader] at hlength
  have hholds := hcopies.holds
  cases hftps : s.ftps with
  | header requestSize databufin =>
      rw [hftps] at hholds
      cases hholds
      omega
  | body name size rval databufin written =>
      rw [hftps] at hholds
      cases hholds with
      | body name size databufin head written hsplit hhead hannounces hmore =>
          rw [hout] at hsplit
          obtain ⟨rfl, rfl⟩ := List.append_inj hsplit (hheader.trans hhead.symm)
          rw [(hannounces.of_header rfl).1, toInt_fileSize hsize] at hmore
          exact absurd hmore (lt_irrefl _)
  | closed name written =>
      obtain ⟨rfl, rfl⟩ := hcopies.eq_file hmain hnul hsize hftps
      rfl

/-! ## A file of one packet -/

/-- No packet arrives before all those in front of it have. -/
def arrivesNext (s : State) : Event → Prop
  | .arrive d _ _ _ _ => seqnumOf d.packnum ≤ missing s.sbuffer.toRing
  | _ => True

/-- The condition on a step where packets arrive in order. -/
def inTurn (s : State) (e : Event) : Prop := undisturbed s e ∧ arrivesNext s e

theorem undisturbed_reachable
    (hreach : ((copy creates filename file).restrict inTurn).Reachable s) :
    ((copy creates filename file).restrict undisturbed).Reachable s :=
  hreach.restrict_mono fun _ _ hguard => hguard.1

/-- An empty chunk behind a packet that has been sent changes nothing. -/
theorem loaded_addData_nil {t : Sender.Session} (hloaded : Loaded 0 1 t) :
    ∃ t', t.call (.addData []) = some t' ∧ Loaded 0 1 t' ∧
      t'.cbuffer.packtimes = t.cbuffer.packtimes ∧ t'.sent = t.sent := by
  obtain ⟨⟨cirbuffer, packtimes, nodes, dstart, dend, windowend, packseq,
    isEmpty, srtt, rttvar, rto⟩, accepted, packets, sent, freed⟩ := t
  obtain ⟨rfl, rfl, rfl, rfl, haccepted, hpackets⟩ := hloaded
  have hcut : newPackNodes 1000 2 0 = some ([], 2) := by
    rw [newPackNodes, if_neg (by decide)]
  have hmod : Int.tmod 1000 64000 = 1000 := by decide
  simp only at haccepted hpackets
  simp only [Sender.Session.call, addData, spaceLeft, CBuffer.store, memcpyIn,
    checkWindow, freeAcked, fillWindow, cmod, disttowindow, nextData,
    Nat.cast_zero, mul_zero, zero_add, add_zero, sub_zero, sub_self,
    List.length_nil, List.map_cons, List.map_nil, List.sum_cons, List.sum_nil,
    List.drop_zero, List.take_nil, List.getLast?_singleton, List.append_nil,
    Int.reduceLT, Int.reduceLE, Int.reduceSub, Int.toNat_zero, ge_iff_le,
    gt_iff_lt, le_refl, and_self, if_true, if_false, OfNat.one_ne_ofNat,
    Nat.ofNat_pos, abs_nonneg, Option.map_some, Option.bind_some, hmod, hcut]
  refine ⟨_, rfl, ⟨rfl, rfl, rfl, rfl, haccepted, ?_⟩, rfl, rfl⟩
  simp [created, hpackets]

/-- A datagram for which there is room is taken and answered. -/
theorem recvHost_of_call {t : Rounds.State} {session session' : Sender.Session}
    {temp datagram : List UInt8}
    (hcall : session.call (.addData datagram) = some session')
    (hcbuffer : session.cbuffer = t.cbuffer) (hfree : t.tempStored = false)
    (hlength : datagram.length ≤ 1000)
    (hroom : (datagram.length : ℤ) ≤ |t.cbuffer.spaceLeft.1|) :
    t.recvHost temp (some (some datagram)) = some
      { cbuffer := session'.cbuffer
        tempStored := false
        bread := datagram.length
        received := t.received ++ [datagram]
        accepted := t.accepted ++ [datagram]
        replies := t.replies + 1 } := by
  obtain ⟨result, freed, hadd⟩ := addData_of_call hcall
  rw [hcbuffer] at hadd
  have hresult := Rounds.fst_addData hadd
  rw [if_pos hroom] at hresult
  subst hresult
  have htake := Rounds.addData_take t.cbuffer
    (show datagram.length ≤ (datagram ++ temp.drop datagram.length).length by
      rw [List.length_append]; exact Nat.le_add_right _ _)
  rw [List.take_left] at htake
  simp only [Rounds.State.recvHost, hfree, Bool.false_eq_true, if_false,
    List.take_of_length_le hlength, Rounds.State.addData, ← htake, hadd,
    Option.map_some, if_true, Int.toNat_natCast, List.take_left]

theorem main_onePacket (hname : filename.length ≤ 996)
    (hfile : file.length = 976) : ∃ datagram : List UInt8,
      Ftpc.main filename file = some [datagram, []] ∧
        datagram.length = 1000 := by
  have hheader := @Ftps.length_header (Ftpc.fileSize file) _
    (Ftpc.length_nameField filename)
  have hlength : (Ftps.header (Ftpc.fileSize file) (Ftpc.nameField filename) ++
      file).length = 1000 := by
    rw [List.length_append, hheader, hfile]
  refine ⟨_, ?_, hlength⟩
  rw [Ftpc.main, Ftpc.sendFile_eq_pieces, if_pos hname,
    Ftpc.pieces_long hlength.ge, List.take_of_length_le hlength.le,
    List.drop_of_length_le hlength.le]
  rfl

theorem next {s s' : State} (e : Event)
    (hreach : ((copy creates filename file).restrict inTurn).Reachable s)
    (hguard : undisturbed s e) (henabled : enabled s e)
    (hstep : s.step creates e = some s')
    (hnext : arrivesNext s e := by exact trivial) :
    ((copy creates filename file).restrict inTurn).Reachable s' :=
  hreach.step (l := e) ⟨⟨hguard, hnext⟩, henabled, hstep⟩

/-- Between two calls of `receiveAndSend` on which there is nothing to read. -/
theorem pass {s : State}
    (hreach : ((copy creates filename file).restrict inTurn).Reachable s)
    (hplace : s.place = .remote) :
    ((copy creates filename file).restrict inTurn).Reachable
      { s with place := .window } := by
  have htimer := @next creates filename file s { s with place := .timer }
    .proceed hreach trivial (by simp [enabled, hplace])
    (by rw [State.step, hplace]; rfl)
  exact next .proceed htimer trivial (by simp [enabled]) rfl

theorem sent_addData {t t' : Sender.Session} {chunk : List UInt8}
    (hcall : t.call (.addData chunk) = some t') : t'.sent = t.sent := by
  rw [Sender.Session.call, Option.map_eq_some_iff] at hcall
  obtain ⟨_, -, rfl⟩ := hcall
  rfl

theorem sent_sendWindow {t t' : Sender.Session} {clock : ℕ → Timespec}
    (hcall : t.call (.sendWindow clock) = some t') :
    ∃ sents, t.cbuffer.sendWindow clock = some (sents, t'.cbuffer) ∧
      t'.sent = t.sent ++ sents := by
  rw [Sender.Session.call, Option.map_eq_some_iff] at hcall
  obtain ⟨⟨sents, s⟩, hsend, rfl⟩ := hcall
  exact ⟨sents, hsend, rfl⟩

/-- `tcpdc` takes the datagram that is on its way, and `ftpc` reads the reply. -/
theorem taken {s : State} {t : Rounds.State} {datagram : List UInt8}
    (hreach : ((copy creates filename file).restrict inTurn).Reachable s)
    (hplace : s.place = .round) (hwaits : s.waits = true)
    (hhost : s.host = [datagram]) (hfree : s.tcpdc.tempStored = false)
    (hreplies : s.answered < t.replies)
    (hempty : datagram = [] → 0 < used s.tcpdc.cbuffer)
    (hrecv : s.tcpdc.recvHost (Rounds.filled 0) (some (some datagram)) =
      some t) :
    ((copy creates filename file).restrict inTurn).Reachable
      { s with
        host := []
        tcpdc := t
        place := .remote
        waits := false
        answered := s.answered + 1 } := by
  have htemp := Rounds.length_filled 0
  have htried := @next creates filename file s { s with place := .host }
    (.retry (Rounds.filled 0)) hreach
    (fun h => absurd (hfree.symm.trans h) Bool.false_ne_true)
    ⟨hplace, htemp⟩ (by simp [State.step, Rounds.State.retry, hfree])
  have htaken := @next creates filename file _
    { s with host := [], tcpdc := t, place := .remote }
    (.recvHost (Rounds.filled 0)) htried
    (fun h => hempty (by simpa [hhost] using h)) ⟨rfl, hfree, htemp⟩
    (by simp [State.step, hhost, hrecv])
  exact next .ftpcRecv htaken trivial ⟨hwaits, hreplies⟩ rfl

/-- Both datagrams have been taken, and the packet has been sent. -/
theorem exists_taken (hname : filename.length ≤ 996)
    (hfile : file.length = 976) : ∃ (t : Rounds.State) (sents : List Sent)
      (session : Sender.Session) (bytes : List UInt8) (rest : List RttPack),
      ((copy creates filename file).restrict inTurn).Reachable
        ⟨[], false, 2, [], t, .remote, sents, SBuffer.initHead, [],
          Ftps.Progress.start, []⟩ ∧
      t.cbuffer = session.cbuffer ∧ Loaded 0 1 session ∧
      Window session.cbuffer ∧ session.cbuffer.packtimes =
        { bsn := (0 : ℕ) + 1, on := 1, timestart := ⟨0, 0⟩ } :: rest ∧
      { bsn := 1, datagram := datagram 1 bytes } ∈ sents ∧
      bytes.length = 1000 := by
  obtain ⟨datagram, hmain, hlength⟩ := @main_onePacket filename file hname hfile
  -- the calls on the send buffer
  obtain ⟨added, hadd, hlisted, hpacktimes⟩ := drained_start.addData (by decide)
    (show (datagram.length : ℤ) = 1000 by rw [hlength]; rfl)
  obtain ⟨sent, hsend, hloaded, hslots, bytes, hsent, hbytes⟩ :=
    hlisted.sendWindow (by decide) hpacktimes rfl
  obtain ⟨padded, hpad, hpadded, hslots', -⟩ := loaded_addData_nil hloaded
  rw [hslots] at hslots'
  have hreach : sender.Reachable padded :=
    .step (l := .addData []) (.step (l := .sendWindow fun _ => ⟨0, 0⟩)
      (.step (l := .addData datagram) (.initial rfl) hadd) hsend) hpad
  have hroom : (datagram.length : ℤ) ≤
      |Rounds.State.start.cbuffer.spaceLeft.1| := by
    rw [hlength]
    decide
  let t₁ : Rounds.State :=
    { cbuffer := added.cbuffer, tempStored := false, bread := datagram.length,
      received := [datagram], accepted := [datagram], replies := 1 }
  let t₂ : Rounds.State := { t₁ with cbuffer := sent.cbuffer }
  let t₃ : Rounds.State :=
    { cbuffer := padded.cbuffer, tempStored := false, bread := 0,
      received := [datagram, []], accepted := [datagram, []], replies := 2 }
  -- `ftpc` sends the first datagram, and `tcpdc` takes it
  have hgiven := @next creates filename file _
    ⟨[[]], true, 0, [datagram], Rounds.State.start, .round, [],
      SBuffer.initHead, [], Ftps.Progress.start, []⟩ .ftpcSend
    (.initial ⟨_, hmain, rfl⟩) trivial rfl rfl
  have hread := taken hgiven rfl rfl rfl rfl (t := t₁) Nat.one_pos
    (fun hnil => by rw [hnil] at hlength; cases hlength)
    (recvHost_of_call hadd rfl rfl hlength.le hroom)
  -- the second one is on its way while the packet is sent
  have hgiven := @next creates filename file _
    ⟨[], true, 1, [[]], t₁, .remote, [], SBuffer.initHead, [],
      Ftps.Progress.start, []⟩ .ftpcSend hread trivial rfl rfl
  obtain ⟨sents, hsends, hlog⟩ := sent_sendWindow hsend
  rw [sent_addData hadd] at hlog
  have hwindow := @next creates filename file _
    ⟨[], true, 1, [[]], t₂, .round, sents, SBuffer.initHead, [],
      Ftps.Progress.start, []⟩ (.sendWindow fun _ => ⟨0, 0⟩) (pass hgiven rfl)
    trivial rfl (congrArg (Option.map _) hsends)
  -- it is taken while the packet is still in the buffer
  have hused : used sent.cbuffer = 1000 := by
    rw [used, hloaded.dstart_eq, hloaded.dend_eq]
    rfl
  have hread := taken hwindow rfl rfl rfl rfl (t := t₃) Nat.one_lt_two
    (fun _ => by simp only [t₂, hused]; decide)
    (recvHost_of_call hpad rfl rfl (Nat.zero_le _) (abs_nonneg _))
  refine ⟨t₃, sents, padded, bytes, _, hread, rfl, hpadded,
    window_reachable hreach, hslots', ?_, hbytes⟩
  rw [hlog] at hsent
  exact hsent

/-- The packet has been stored and acknowledged, and nothing is handed out
yet. -/
theorem exists_stored (hname : filename.length ≤ 996)
    (hfile : file.length = 976) : ∃ s,
      ((copy creates filename file).restrict inTurn).Reachable s ∧
      s.unsent = [] ∧ s.waits = false ∧
      s.tcpdc.cbuffer.spaceLeft.1 = 64000 ∧ s.out = [] ∧
      EndToEnd.Holding 0 s.sbuffer := by
  obtain ⟨t, sents, session, bytes, rest, htaken, hcbuffer, hloaded, hwindow,
    hslots, hsent, hbytes⟩ := @exists_taken creates filename file hname hfile
  obtain ⟨stored, hstored, hholding⟩ := EndToEnd.exists_holding hbytes
  obtain ⟨freed, hrecv, -, hdrained, -⟩ := hloaded.recvACK (by decide) hwindow
    hslots rfl
  have hdrained := hdrained (by decide)
  have harrived := @next creates filename file _
    ⟨[], false, 2, [], t, .remote, sents, stored, [1],
      Ftps.Progress.start, []⟩
    (.arrive (datagram 1 bytes) (List.Vector.replicate 16 0) (fun _ => 0) 0 0)
    htaken
    (by
      intro hlate
      rw [SBuffer.initHead_represents.toRing_eq] at hlate
      exact absurd (show (1 : ℤ) < 1 from hlate) (by decide))
    ⟨⟨_, hsent, rfl⟩, hbytes⟩
    (by
      rw [State.step, hstored]
      rfl)
    (by
      rw [arrivesNext, SBuffer.initHead_represents.toRing_eq]
      exact show seqnumOf 1 ≤ 1 by decide)
  have hfreed : ∃ result nodes, t.cbuffer.recvACK (seqnumOf 1) ⟨0, 0⟩ =
      some (result, nodes, freed.cbuffer) := by
    rw [Sender.Session.call, Option.map_eq_some_iff, ← hcbuffer] at hrecv
    obtain ⟨⟨result, nodes, s⟩, hrecv, rfl⟩ := hrecv
    exact ⟨result, nodes, hrecv⟩
  obtain ⟨result, nodes, hfreed⟩ := hfreed
  have hfinal := @next creates filename file _
    ⟨[], false, 2, [], { t with cbuffer := freed.cbuffer }, .remote, sents,
      stored, [1], Ftps.Progress.start, []⟩
    (.recvACK 1 ⟨0, 0⟩) harrived
    (by
      rintro other hsame ⟨hdend, -⟩
      rw [hsame, hcbuffer, hloaded.dend_eq] at hdend
      exact absurd hdend (by decide))
    ⟨rfl, List.mem_singleton_self _⟩
    (by
      rw [State.step, Rounds.State.recvACK, hfreed]
      rfl)
  refine ⟨_, hfinal, rfl, rfl, ?_, rfl, hholding⟩
  simp only [spaceLeft, hdrained.dstart_eq, hdrained.dend_eq,
    hdrained.isEmpty_eq, lt_irrefl, if_false, if_true]

/-- A request of `ftps` is answered, and `ftps` takes the answer. -/
theorem answer {size : UInt32} {count : ℤ} {bytes : List UInt8}
    {sbuffer : SBuffer}
    (hreach : ((copy creates filename file).restrict inTurn).Reachable s)
    (hsize : file.length < 2147483648)
    (hname : (Ftps.received (Ftpc.nameField filename)).length < 20)
    (hcreates : creates (Ftps.received (Ftpc.nameField filename)) = true)
    (hask : s.ftps.request = some size)
    (hrequest : s.sbuffer.requestData size.toNat =
      some (count, bytes, sbuffer))
    (hlength : bytes.length ≤ size.toNat) :
    ∃ ftps, ((copy creates filename file).restrict inTurn).Reachable
      { s with sbuffer := sbuffer, ftps := ftps, out := s.out ++ bytes } := by
  obtain ⟨datagrams, hmain, hcopies⟩ := copies_reachable (undisturbed_reachable hreach)
  obtain ⟨d, horderly, hcouples⟩ := hcopies.couples
  have hanswered : Orderly
      ⟨{ d.transfer with sbuffer := sbuffer }, d.out ++ bytes⟩ := by
    rw [← hcouples.sbuffer] at hrequest
    refine horderly.step (l := .requestData size.toNat)
      ⟨trivial, ⟨trivial, ?_⟩, ?_⟩
    · rw [Transfer.State.step, hrequest]
      rfl
    · rw [EndToEnd.handed, hrequest]
      rfl
  have hfront := hcopies.inOrder.out_prefix hmain hanswered hcouples.accepted
  simp only [hcouples.out] at hfront
  obtain ⟨ftps, hftps⟩ := hcopies.holds.exists_step hask hlength hfront
    (Ftpc.length_nameField filename) (by omega) hname hcreates
  refine ⟨ftps, next .hostisset hreach trivial trivial ?_⟩
  rw [State.step, hask, Option.bind_some, hrequest, Option.bind_some]
  simp only [hftps, Option.map_some]

/-- What `ftps` asks for until it has the whole file. -/
theorem request_eq (hcopies : Copies creates datagrams s)
    (hmain : Ftpc.main filename file = some datagrams)
    (hsize : file.length < 2147483648)
    (hshort : s.out.length < 24 + file.length) :
    (s.out = [] → s.ftps.request = some 24) ∧
      (24 ≤ s.out.length → s.ftps.request = some 25) := by
  have hholds := hcopies.holds
  cases hftps : s.ftps with
  | header requestSize databufin =>
      rw [hftps] at hholds
      cases hholds with
      | header requestSize databufin hpos hlength hread =>
          refine ⟨fun hnil => ?_, fun hlong => by omega⟩
          rw [hnil, List.length_nil, Nat.zero_add] at hlength
          exact congrArg some (UInt32.toNat_inj.1 hlength)
  | body name size rval databufin written =>
      rw [hftps] at hholds
      cases hholds with
      | body name size databufin head written hsplit hhead _ _ =>
          refine ⟨fun hnil => ?_, fun _ => rfl⟩
          rw [hnil] at hsplit
          have hlength := congrArg List.length hsplit
          rw [List.length_nil, List.length_append, hhead] at hlength
          omega
  | closed name written =>
      rw [hftps] at hholds
      cases hholds with
      | closed name size head written hsplit hhead hannounces hreached =>
          obtain ⟨rest, hrest⟩ := hcopies.out_prefix hmain
          rw [hsplit, List.append_assoc] at hrest
          obtain ⟨hheader, -⟩ := List.append_inj hrest
            (hhead.trans (Ftps.length_header (Ftpc.length_nameField _)).symm)
          rw [(hannounces.of_header hheader).1, toInt_fileSize hsize]
            at hreached
          rw [hsplit, List.length_append, hhead] at hshort
          omega

/-- `off` bytes have been handed out, and all else is done. -/
structure Reading (creates : List UInt8 → Bool) (filename file : List UInt8)
    (off : ℕ) (s : State) : Prop where
  reachable :
    ((copy creates filename file).restrict inTurn).Reachable s
  unsent : s.unsent = []
  idle : s.waits = false
  space : s.tcpdc.cbuffer.spaceLeft.1 = 64000
  length_out : s.out.length = off
  holding : EndToEnd.Holding off s.sbuffer

theorem Reading.part {off : ℕ} (hreading : Reading creates filename file off s)
    (hfile : file.length = 976)
    (hname : (Ftps.received (Ftpc.nameField filename)).length < 20)
    (hcreates : creates (Ftps.received (Ftpc.nameField filename)) = true)
    {size : UInt32} (hask : s.ftps.request = some size)
    (hoff : off + size.toNat < 1000) :
    ∃ s', Reading creates filename file (off + size.toNat) s' := by
  obtain ⟨bytes, sbuffer, hrequest, hlength, hholding⟩ :=
    hreading.holding.part (Nat.cast_nonneg off) (k := size.toNat)
      (by exact_mod_cast hoff)
  obtain ⟨ftps, hreach⟩ := answer hreading.reachable (by omega) hname hcreates
    hask hrequest hlength.le
  refine ⟨_, hreach, hreading.unsent, hreading.idle, hreading.space, ?_, ?_⟩
  · rw [List.length_append, hreading.length_out, hlength]
  · rw [Nat.cast_add]
    exact hholding

theorem exists_reading (hlength : filename.length ≤ 996)
    (hfile : file.length = 976)
    (hname : (Ftps.received (Ftpc.nameField filename)).length < 20)
    (hcreates : creates (Ftps.received (Ftpc.nameField filename)) = true)
    {j : ℕ} (hj : j ≤ 39) :
    ∃ s, Reading creates filename file (24 + 25 * j) s := by
  induction j with
  | zero =>
      obtain ⟨s, hreach, hunsent, hidle, hspace, hout, hholding⟩ :=
        @exists_stored creates filename file hlength hfile
      obtain ⟨datagrams, hmain, hcopies⟩ := copies_reachable (undisturbed_reachable hreach)
      have hask := (request_eq hcopies hmain (by omega)
        (by rw [hout]; simp)).1 hout
      have hreading : Reading creates filename file 0 s :=
        ⟨hreach, hunsent, hidle, hspace, by rw [hout]; rfl, hholding⟩
      exact hreading.part hfile hname hcreates hask (by decide)
  | succ j ih =>
      obtain ⟨s, hreading⟩ := ih (by omega)
      obtain ⟨datagrams, hmain, hcopies⟩ := copies_reachable (undisturbed_reachable hreading.reachable)
      have hask := (request_eq hcopies hmain (by omega)
        (by rw [hreading.length_out]; omega)).2
        (by rw [hreading.length_out]; omega)
      exact hreading.part hfile hname hcreates hask
        (show 24 + 25 * j + 25 < 1000 by omega)

/-- A file of 976 bytes has been copied. -/
theorem exists_copied (hnul : ∀ byte ∈ filename, byte ≠ 0)
    (hlength : filename.length ≤ 996) (hfile : file.length = 976)
    (hname : (Ftps.received (Ftpc.nameField filename)).length < 20)
    (hcreates : creates (Ftps.received (Ftpc.nameField filename)) = true) :
    ∃ s, ((copy creates filename file).restrict inTurn).Reachable s ∧
      s.unsent = [] ∧ s.waits = false ∧
      s.tcpdc.cbuffer.spaceLeft.1 = 64000 ∧
      (∃ count rest, s.sbuffer.requestData 25 = some (count, [], rest)) ∧
      s.ftps = .closed (target filename) file := by
  obtain ⟨s, hreading⟩ := @exists_reading creates filename file hlength hfile
    hname hcreates 39 le_rfl
  obtain ⟨datagrams, hmain, hcopies⟩ := copies_reachable (undisturbed_reachable hreading.reachable)
  have hask := (request_eq hcopies hmain (by omega)
    (by rw [hreading.length_out]; omega)).2
    (by rw [hreading.length_out]; omega)
  obtain ⟨bytes, sbuffer, hrequest, hbytes, rest, hnothing⟩ :=
    hreading.holding.rest (by decide) (show (1000 : ℤ) - 999 ≤ 25 by decide)
      rfl rfl
  obtain ⟨ftps, hreach⟩ := answer hreading.reachable (by omega) hname hcreates
    hask hrequest (show bytes.length ≤ 25 by omega)
  obtain ⟨datagrams, hmain, hcopies⟩ := copies_reachable (undisturbed_reachable hreach)
  exact ⟨_, hreach, hreading.unsent, hreading.idle, hreading.space,
    ⟨0, rest, hnothing⟩, hcopies.closed hmain hnul (by omega) hreading.unsent
      hreading.idle hreading.space ⟨0, rest, hnothing⟩⟩

/-! ## The result -/

/-- A copy that has come to its end is the file, under its name. -/
theorem copy_eq_file (creates : List UInt8 → Bool) (filename file : List UInt8)
    (s : State)
    (hreach : ((copy creates filename file).restrict undisturbed).Reachable s)
    (hnul : ∀ byte ∈ filename, byte ≠ 0) (hsize : file.length < 2147483648)
    (name written : List UInt8) (hclosed : s.ftps = .closed name written) :
    name = target filename ∧ written = file := by
  obtain ⟨datagrams, hmain, hcopies⟩ := copies_reachable hreach
  exact hcopies.eq_file hmain hnul hsize hclosed

theorem copy_eq_file_onePacket : ∃ s,
    ((copy (fun _ => true) [97] (List.replicate 976 7)).restrict
      undisturbed).Reachable s ∧
    ∃ name written, s.ftps = .closed name written ∧ name = target [97] ∧
      written = List.replicate 976 7 := by
  obtain ⟨s, hreach, -, -, -, -, hclosed⟩ := @exists_copied (fun _ => true) [97]
    (List.replicate 976 7) (by simp) (by decide) List.length_replicate
    (by decide) rfl
  have hreach := undisturbed_reachable hreach
  exact ⟨s, hreach, _, _, hclosed, copy_eq_file _ _ _ s hreach (by simp)
    (by rw [List.length_replicate]; omega) _ _ hclosed⟩

/-- Once `ftpc` is done, nothing waits in the send buffer and a request would
get nothing, the file has been copied. -/
theorem copy_completes (creates : List UInt8 → Bool)
    (filename file : List UInt8) (s : State)
    (hreach : ((copy creates filename file).restrict undisturbed).Reachable s)
    (hnul : ∀ byte ∈ filename, byte ≠ 0) (hsize : file.length < 2147483648)
    (hunsent : s.unsent = []) (hidle : s.waits = false)
    (hspace : s.tcpdc.cbuffer.spaceLeft.1 = 64000)
    (hnothing : ∃ count rest,
      s.sbuffer.requestData 25 = some (count, [], rest)) :
    s.ftps = .closed (target filename) file := by
  obtain ⟨datagrams, hmain, hcopies⟩ := copies_reachable hreach
  exact hcopies.closed hmain hnul hsize hunsent hidle hspace hnothing

theorem copy_completes_onePacket : ∃ s,
    ((copy (fun _ => true) [97] (List.replicate 976 7)).restrict
      undisturbed).Reachable s ∧
    s.ftps = .closed (target [97]) (List.replicate 976 7) := by
  obtain ⟨s, hreach, hunsent, hidle, hspace, hnothing, -⟩ :=
    @exists_copied (fun _ => true) [97] (List.replicate 976 7) (by simp)
      (by decide) List.length_replicate (by decide) rfl
  have hreach := undisturbed_reachable hreach
  exact ⟨s, hreach, copy_completes _ _ _ s hreach (by simp)
    (by rw [List.length_replicate]; omega) hunsent hidle hspace hnothing⟩

end UdpTransfer.Copy
