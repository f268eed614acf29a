import UdpTransfer.System.Completion
import UdpTransfer.System.Ftpc
import UdpTransfer.System.Replies
import UdpTransfer.System.Rounds

/-!
# Copying a file

All parties together: `ftpc` gives a datagram to `tcpdc` and waits for the
answer, `tcpdc` goes through the parts of `receiveAndSend`, the network carries
packets and acknowledgements as before, and `tcpds` answers the requests of
`ftps`.  A datagram between `ftpc` and `tcpdc` can get lost as well, and notices
of timers may come at any time.  If `ftps` comes to its end, it has written the
file, under its name.
-/

namespace UdpTransfer.Copy

open UdpTransfer.Runs
open UdpTransfer.Wire
open UdpTransfer.Sender
open UdpTransfer.Receiver

/-- Where `receiveAndSend` has come to. -/
inductive Place where
  /-- At the top, between two rounds. -/
  | round
  | host
  | remote
  | timer
  | window
  deriving DecidableEq

structure State where
  /-- The datagrams that `ftpc` has yet to send. -/
  unsent : List (List UInt8)
  /-- `ftpc` is in `RECV`. -/
  waits : Bool
  /-- How many answers `ftpc` has read. -/
  answered : ℕ
  /-- On the way from `ftpc` to `tcpdc`. -/
  host : List (List UInt8)
  tcpdc : Rounds.State
  place : Place
  sent : List Sent
  sbuffer : SBuffer
  /-- Every acknowledgement that `tcpds` sent. -/
  acks : List UInt32
  ftps : Ftps.Progress
  /-- The bytes that `tcpds` has sent to `ftps`. -/
  out : List UInt8

inductive Event where
  | ftpcSend
  | ftpcRecv
  /-- The datagrams on the way to `tcpdc` get lost. -/
  | lose
  /-- Tries the stored chunk again, if there is one. -/
  | retry (temp : List UInt8)
  /-- Reads a datagram from `ftpc`. -/
  | recvHost (temp : List UInt8)
  /-- `RECV` on `hostSockfd` fails. -/
  | recvFails
  | recvACK (ack : UInt32) (stop : Timespec)
  | timerExpire (exp : UInt32)
  /-- Goes on to the next part, where there is nothing to read. -/
  | proceed
  | sendWindow (clock : ℕ → Timespec)
  | arrive (d : Datagram) (remote : SockAddr) (memory : ℤ → UInt8)
      (buffer tempbuf : ℤ)
  /-- `tcpds` answers a request of `ftps`. -/
  | hostisset

def start (datagrams : List (List UInt8)) : State where
  unsent := datagrams
  waits := false
  answered := 0
  host := []
  tcpdc := Rounds.State.start
  place := .round
  sent := []
  sbuffer := SBuffer.initHead
  acks := []
  ftps := Ftps.Progress.start
  out := []

def Place.next : Place → Place
  | .round => .host
  | .host => .remote
  | .remote => .timer
  | .timer => .window
  | .window => .round

/-- What the parties can do and the network can bring about. -/
def enabled (s : State) : Event → Prop
  | .ftpcSend => s.waits = false
  | .ftpcRecv => s.waits = true ∧ s.answered < s.tcpdc.replies
  | .lose => True
  | .retry temp => s.place = .round ∧ temp.length = 1000
  | .recvHost temp =>
      s.place = .host ∧ s.tcpdc.tempStored = false ∧ temp.length = 1000
  | .recvFails => s.place = .host ∧ s.tcpdc.tempStored = false
  | .recvACK ack _ => s.place = .remote ∧ ack ∈ s.acks
  | .timerExpire _ => s.place = .timer
  | .proceed => s.place ≠ .round ∧ s.place ≠ .window
  | .sendWindow _ => s.place = .window
  | .arrive d _ _ _ _ =>
      (∃ sent ∈ s.sent, sent.datagram = d) ∧ d.payload.length = 1000
  | .hostisset => True

def State.step (creates : List UInt8 → Bool) (s : State) : Event → Option State
  | .ftpcSend =>
      match s.unsent with
      | [] => none
      | datagram :: unsent =>
          some { s with
            unsent := unsent
            waits := true
            host := s.host ++ [datagram] }
  | .ftpcRecv => some { s with waits := false, answered := s.answered + 1 }
  | .lose => some { s with host := [] }
  | .retry temp =>
      (s.tcpdc.retry temp).map fun t => { s with tcpdc := t, place := .host }
  | .recvHost temp =>
      match s.host with
      | [] => none
      | datagram :: host =>
          (s.tcpdc.recvHost temp (some (some datagram))).map fun t =>
            { s with host := host, tcpdc := t, place := .remote }
  | .recvFails =>
      (s.tcpdc.recvHost [] (some none)).map fun t =>
        { s with tcpdc := t, place := .remote }
  | .recvACK ack stop =>
      (s.tcpdc.recvACK (ack, stop)).map fun t => { s with tcpdc := t }
  | .timerExpire exp => some { s with tcpdc := s.tcpdc.timerExpire exp }
  | .proceed => some { s with place := s.place.next }
  | .sendWindow clock =>
      (s.tcpdc.cbuffer.sendWindow clock).map fun (sents, cbuffer) =>
        { s with
          tcpdc := { s.tcpdc with cbuffer := cbuffer }
          sent := s.sent ++ sents
          place := .round }
  | .arrive d remote memory buffer tempbuf =>
      (acknowledge s.sbuffer
        (remoteisset memory buffer tempbuf (frame remote d))).map
          fun (acks, sbuffer) =>
            { s with sbuffer := sbuffer, acks := acks ++ s.acks }
  | .hostisset =>
      s.ftps.request.bind fun size =>
        (s.sbuffer.requestData size.toNat).bind fun (_, bytes, sbuffer) =>
          (s.ftps.step creates bytes).map fun ftps =>
            { s with sbuffer := sbuffer, ftps := ftps, out := s.out ++ bytes }

/-- The copy of `file`, called `filename`. -/
def copy (creates : List UInt8 → Bool) (filename file : List UInt8) :
    System State Event where
  initial s := ∃ datagrams, Ftpc.main filename file = some datagrams ∧
    s = start datagrams
  step s e s' := enabled s e ∧ s.step creates e = some s'

/-- The conditions on a step: `temp` still holds a chunk that will be taken now,
no empty chunk is added to an empty buffer, the sender does not drain its buffer
at its very end, and late packets are harmless. -/
def undisturbed (s : State) : Event → Prop
  | .retry temp => s.tcpdc.tempStored = true →
      s.tcpdc.bread ≤ |s.tcpdc.cbuffer.spaceLeft.1| →
      s.tcpdc.received.getLast? = some (temp.take s.tcpdc.bread.toNat)
  | .recvHost _ => s.host.head? = some [] → 0 < used s.tcpdc.cbuffer
  | .recvACK ack stop => ∀ t : Sender.Session,
      t.cbuffer = s.tcpdc.cbuffer → ¬ drains t (.recvACK (seqnumOf ack) stop)
  | .arrive d _ _ _ _ => EndToEnd.ArrivesHarmlessly s.sbuffer.toRing d
  | _ => True

/-! ## ftpc and tcpdc -/

/-- At most one datagram of `ftpc` has not been answered, and `tcpdc` has
received the datagrams in their order. -/
structure InOrder (datagrams : List (List UInt8)) (s : State) : Prop where
  lossless : Rounds.Lossless s.tcpdc
  waiting : Rounds.Waiting s.tcpdc
  positive : s.tcpdc.tempStored = true → 0 < s.tcpdc.bread
  prefix_eq : s.tcpdc.received ++ s.host <+: datagrams
  unsent_eq : s.unsent =
    datagrams.drop (s.answered + if s.waits then 1 else 0)
  idle : s.waits = false →
    s.host = [] ∧ s.tcpdc.received.length = s.answered
  busy : s.waits = true → s.answered ≤ s.tcpdc.received.length ∧
    s.tcpdc.received.length + s.host.length ≤ s.answered + 1
  answered_le : s.answered ≤ s.tcpdc.replies

theorem inOrder_start (datagrams : List (List UInt8)) :
    InOrder datagrams (start datagrams) where
  lossless := Rounds.lossless_start
  waiting := fun h => absurd h Bool.false_ne_true
  positive := fun h => absurd h Bool.false_ne_true
  prefix_eq := List.nil_prefix
  unsent_eq := rfl
  idle := fun _ => ⟨rfl, rfl⟩
  busy := fun h => absurd h Bool.false_ne_true
  answered_le := le_rfl

/-- `ftpc` and its datagrams are as before. -/
structure SameFtpc (s s' : State) : Prop where
  unsent : s'.unsent = s.unsent
  waits : s'.waits = s.waits
  answered : s'.answered = s.answered
  host : s'.host = s.host

/-- `tcpdc` has received nothing further. -/
structure Settles (t t' : Rounds.State) : Prop where
  lossless : Rounds.Lossless t'
  waiting : Rounds.Waiting t'
  positive : t'.tempStored = true → 0 < t'.bread
  received : t'.received = t.received
  replies_le : t.replies ≤ t'.replies

theorem InOrder.update {datagrams : List (List UInt8)} {s s' : State}
    (hinorder : InOrder datagrams s) (hsame : SameFtpc s s')
    (hsettles : Settles s.tcpdc s'.tcpdc) : InOrder datagrams s' where
  lossless := hsettles.lossless
  waiting := hsettles.waiting
  positive := hsettles.positive
  prefix_eq := by
    rw [hsettles.received, hsame.host]
    exact hinorder.prefix_eq
  unsent_eq := by
    rw [hsame.unsent, hsame.answered, hsame.waits]
    exact hinorder.unsent_eq
  idle := by
    rw [hsame.waits, hsame.host, hsame.answered, hsettles.received]
    exact hinorder.idle
  busy := by
    rw [hsame.waits, hsame.host, hsame.answered, hsettles.received]
    exact hinorder.busy
  answered_le := by
    rw [hsame.answered]
    exact hinorder.answered_le.trans hsettles.replies_le

theorem InOrder.settles {datagrams : List (List UInt8)} {s : State}
    (hinorder : InOrder datagrams s) {t : Rounds.State}
    (hsame : Rounds.SameHost s.tcpdc t) : Settles s.tcpdc t where
  lossless := hsame.lossless hinorder.lossless
  waiting := hsame.waiting hinorder.waiting
  positive := by
    rw [hsame.tempStored, hsame.bread]
    exact hinorder.positive
  received := hsame.received
  replies_le := hsame.replies.ge

/-- A chunk that has to wait is not empty. -/
theorem positive_addData {t t' : Rounds.State} {temp : List UInt8}
    (hadd : t.addData temp = some t') :
    t'.tempStored = true → 0 < t'.bread := by
  obtain ⟨hbread, -, ⟨-, hfree, -⟩ | ⟨hfull, -⟩⟩ :=
    Rounds.State.addData_eq_some hadd
  · rw [hfree]
    exact fun h => absurd h Bool.false_ne_true
  · intro _
    have hspace := abs_nonneg t.cbuffer.spaceLeft.1
    omega

theorem InOrder.retry {datagrams : List (List UInt8)} {s : State}
    (hinorder : InOrder datagrams s) {temp : List UInt8} {t : Rounds.State}
    (hlength : temp.length = 1000)
    (hkeeps : undisturbed s (.retry temp))
    (hretry : s.tcpdc.retry temp = some t) : Settles s.tcpdc t := by
  let round : Rounds.Round :=
    { temp := temp, temp_length := hlength, host := none, acks := [],
      expirations := [], clock := fun _ => ⟨0, 0⟩ }
  have hlossless := @Rounds.Lossless.retry _ _ round hinorder.lossless hkeeps hretry
  have hwaiting := hinorder.waiting.retry hretry
  rw [Rounds.State.retry] at hretry
  split at hretry
  · refine ⟨hlossless, hwaiting, positive_addData hretry, ?_, ?_⟩ <;>
      obtain ⟨-, hreceived, ⟨-, -, -, hreplies⟩ | ⟨-, -, -, hreplies⟩⟩ :=
        Rounds.State.addData_eq_some hretry
    · exact hreceived
    · exact hreceived
    · exact (Nat.le_succ _).trans hreplies.ge
    · exact hreplies.ge
  · cases hretry
    exact ⟨hlossless, hwaiting, hinorder.positive, rfl, le_rfl⟩

/-- The datagram that has been read is the next one. -/
theorem InOrder.recvHost {datagrams : List (List UInt8)} {s : State}
    (hinorder : InOrder datagrams s)
    (hshort : ∀ datagram ∈ datagrams, datagram.length ≤ 1000)
    {temp datagram : List UInt8} {host : List (List UInt8)} {t : Rounds.State}
    (hhost : s.host = datagram :: host) (hfree : s.tcpdc.tempStored = false)
    (hrecv : s.tcpdc.recvHost temp (some (some datagram)) = some t) :
    InOrder datagrams
      { s with host := host, tcpdc := t, place := .remote } := by
  have hlossless := hinorder.lossless.recvHost hrecv
  have hwaiting := hinorder.waiting.recvHost hrecv
  have hfront := hinorder.prefix_eq
  rw [hhost] at hfront
  have hlength : datagram.length ≤ 1000 :=
    hshort datagram (hfront.subset (by simp))
  have hbusy : s.waits = true := by
    by_contra hidle
    have := (hinorder.idle (Bool.eq_false_iff.2 hidle)).1
    rw [hhost] at this
    cases this
  obtain ⟨hlow, hhigh⟩ := hinorder.busy hbusy
  rw [hhost, List.length_cons] at hhigh
  simp only [Rounds.State.recvHost, hfree, Bool.false_eq_true, if_false,
    List.take_of_length_le hlength] at hrecv
  obtain ⟨-, hreceived, hcases⟩ := Rounds.State.addData_eq_some hrecv
  have hreplies : s.tcpdc.replies ≤ t.replies := by
    rcases hcases with ⟨-, -, -, hreplies⟩ | ⟨-, -, -, hreplies⟩
    · exact (Nat.le_succ _).trans hreplies.ge
    · exact hreplies.ge
  simp only at hreceived
  refine ⟨hlossless, hwaiting, positive_addData hrecv, ?_, hinorder.unsent_eq,
    ?_, ?_, hinorder.answered_le.trans hreplies⟩
  · simp only
    rw [hreceived, List.append_assoc, List.singleton_append]
    exact hfront
  · intro hidle
    exact absurd hbusy (Bool.eq_false_iff.1 hidle)
  · intro _
    simp only
    rw [hreceived, List.length_append, List.length_singleton]
    omega

theorem InOrder.ftpcSend {datagrams : List (List UInt8)} {s : State}
    (hinorder : InOrder datagrams s) (hidle : s.waits = false)
    {datagram : List UInt8} {unsent : List (List UInt8)}
    (hunsent : s.unsent = datagram :: unsent) :
    InOrder datagrams
      { s with
        unsent := unsent
        waits := true
        host := s.host ++ [datagram] } := by
  obtain ⟨hhost, hreceived⟩ := hinorder.idle hidle
  have hfront := hinorder.prefix_eq
  rw [hhost, List.append_nil] at hfront
  have hdrop := hinorder.unsent_eq
  rw [hidle, hunsent, ← hreceived] at hdrop
  obtain ⟨rest, rfl⟩ := hfront
  rw [if_neg Bool.false_ne_true, Nat.add_zero, List.drop_left] at hdrop
  refine ⟨hinorder.lossless, hinorder.waiting, hinorder.positive, ?_, ?_,
    fun h => absurd h.symm Bool.false_ne_true, ?_, hinorder.answered_le⟩
  · simp only [hhost, List.nil_append, ← hdrop]
    exact ⟨unsent, by simp⟩
  · simp only [if_true]
    rw [← hreceived, ← hdrop, ← List.drop_drop, List.drop_left]
    rfl
  · intro _
    simp only [hhost, List.nil_append, List.length_singleton]
    omega

theorem InOrder.ftpcRecv {datagrams : List (List UInt8)} {s : State}
    (hinorder : InOrder datagrams s) (hbusy : s.waits = true)
    (hanswer : s.answered < s.tcpdc.replies) :
    InOrder datagrams { s with waits := false, answered := s.answered + 1 } := by
  obtain ⟨-, hhigh⟩ := hinorder.busy hbusy
  have haccepted := hinorder.lossless.replies_eq
  have hreceived := congrArg List.length hinorder.lossless.received_eq
  rw [List.length_append] at hreceived
  have hhost : s.host = [] := List.eq_nil_of_length_eq_zero (by omega)
  have hunsent := hinorder.unsent_eq
  rw [hbusy, if_pos rfl] at hunsent
  exact ⟨hinorder.lossless, hinorder.waiting, hinorder.positive,
    hinorder.prefix_eq, hunsent, fun _ => ⟨hhost, by simp only; omega⟩,
    fun h => absurd h Bool.false_ne_true, hanswer⟩

theorem InOrder.lose {datagrams : List (List UInt8)} {s : State}
    (hinorder : InOrder datagrams s) :
    InOrder datagrams { s with host := [] } := by
  refine ⟨hinorder.lossless, hinorder.waiting, hinorder.positive, ?_,
    hinorder.unsent_eq, fun h => ⟨rfl, (hinorder.idle h).2⟩, fun h => ?_,
    hinorder.answered_le⟩
  · simp only [List.append_nil]
    exact (List.prefix_append _ _).trans hinorder.prefix_eq
  · obtain ⟨hlow, hhigh⟩ := hinorder.busy h
    exact ⟨hlow, (Nat.add_le_add_left (Nat.zero_le _) _).trans hhigh⟩

theorem InOrder.step {creates : List UInt8 → Bool}
    {datagrams : List (List UInt8)} {s s' : State} {e : Event}
    (hinorder : InOrder datagrams s)
    (hshort : ∀ datagram ∈ datagrams, datagram.length ≤ 1000)
    (hguard : undisturbed s e) (henabled : enabled s e)
    (hstep : s.step creates e = some s') : InOrder datagrams s' := by
  have hsame : ∀ {s' : State}, SameFtpc s s' → s'.tcpdc = s.tcpdc →
      InOrder datagrams s' := by
    intro s' hftpc htcpdc
    exact hinorder.update hftpc (htcpdc ▸ hinorder.settles (.refl _))
  cases e with
  | ftpcSend =>
      rw [State.step] at hstep
      split at hstep
      · cases hstep
      · rename_i datagram unsent hunsent
        cases hstep
        exact hinorder.ftpcSend henabled hunsent
  | ftpcRecv =>
      cases hstep
      exact hinorder.ftpcRecv henabled.1 henabled.2
  | lose =>
      cases hstep
      exact hinorder.lose
  | retry temp =>
      obtain ⟨t, hretry, rfl⟩ := Option.map_eq_some_iff.1 hstep
      exact hinorder.update ⟨rfl, rfl, rfl, rfl⟩
        (hinorder.retry henabled.2 hguard hretry)
  | recvHost temp =>
      rw [State.step] at hstep
      split at hstep
      · cases hstep
      · rename_i datagram host hhost
        obtain ⟨t, hrecv, rfl⟩ := Option.map_eq_some_iff.1 hstep
        exact hinorder.recvHost hshort hhost henabled.2.1 hrecv
  | recvFails =>
      obtain ⟨t, hrecv, rfl⟩ := Option.map_eq_some_iff.1 hstep
      have hlossless := hinorder.lossless.recvHost hrecv
      have hwaiting := hinorder.waiting.recvHost hrecv
      simp only [Rounds.State.recvHost, henabled.2, Bool.false_eq_true,
        if_false] at hrecv
      cases hrecv
      exact hinorder.update ⟨rfl, rfl, rfl, rfl⟩ ⟨hlossless, hwaiting,
        fun h => absurd h Bool.false_ne_true, rfl, le_rfl⟩
  | recvACK ack stop =>
      obtain ⟨t, hrecv, rfl⟩ := Option.map_eq_some_iff.1 hstep
      exact hinorder.update ⟨rfl, rfl, rfl, rfl⟩
        (hinorder.settles (Rounds.recvACK_same hrecv))
  | timerExpire exp =>
      cases hstep
      exact hinorder.update ⟨rfl, rfl, rfl, rfl⟩
        (hinorder.settles ⟨rfl, rfl, rfl, rfl, rfl⟩)
  | proceed =>
      cases hstep
      exact hsame ⟨rfl, rfl, rfl, rfl⟩ rfl
  | sendWindow clock =>
      obtain ⟨⟨sents, cbuffer⟩, -, rfl⟩ := Option.map_eq_some_iff.1 hstep
      exact hinorder.update ⟨rfl, rfl, rfl, rfl⟩
        (hinorder.settles ⟨rfl, rfl, rfl, rfl, rfl⟩)
  | arrive d remote memory buffer tempbuf =>
      obtain ⟨⟨acks, sbuffer⟩, -, rfl⟩ := Option.map_eq_some_iff.1 hstep
      exact hsame ⟨rfl, rfl, rfl, rfl⟩ rfl
  | hostisset =>
      obtain ⟨size, -, hstep⟩ := Option.bind_eq_some_iff.1 hstep
      obtain ⟨⟨_, bytes, sbuffer⟩, -, hstep⟩ := Option.bind_eq_some_iff.1 hstep
      obtain ⟨ftps, -, rfl⟩ := Option.map_eq_some_iff.1 hstep
      exact hsame ⟨rfl, rfl, rfl, rfl⟩ rfl

theorem InOrder.accepted_prefix {datagrams : List (List UInt8)} {s : State}
    (hinorder : InOrder datagrams s) : s.tcpdc.accepted <+: datagrams := by
  have hreceived : s.tcpdc.accepted <+: s.tcpdc.received :=
    ⟨_, hinorder.lossless.received_eq.symm⟩
  exact hreceived.trans ((List.prefix_append _ _).trans hinorder.prefix_eq)

/-- When `ftpc` is done, all its datagrams have been accepted. -/
theorem InOrder.accepted_eq {datagrams : List (List UInt8)} {s : State}
    (hinorder : InOrder datagrams s) (hunsent : s.unsent = [])
    (hidle : s.waits = false) : s.tcpdc.accepted = datagrams := by
  have hdrop := hinorder.unsent_eq
  rw [hidle, if_neg Bool.false_ne_true, hunsent, Nat.add_zero] at hdrop
  have hlength := congrArg List.length hdrop
  rw [List.length_nil, List.length_drop] at hlength
  have hreplies := hinorder.lossless.replies_eq
  have hanswered := hinorder.answered_le
  exact hinorder.accepted_prefix.eq_of_length_le (by omega)

/-! ## Sender, receiver and network -/

/-- The runs in which the receiver hands out what the sender accepted. -/
def Orderly (d : EndToEnd.State) : Prop :=
  (EndToEnd.delivery.restrict EndToEnd.undisturbed).Reachable d

/-- `d` is what the state is for sender, receiver and network. -/
structure Couples (s : State) (d : EndToEnd.State) : Prop where
  cbuffer : d.transfer.sender.cbuffer = s.tcpdc.cbuffer
  accepted : d.transfer.sender.accepted = s.tcpdc.accepted.flatten
  sent : d.transfer.sender.sent = s.sent
  sbuffer : d.transfer.sbuffer = s.sbuffer
  acks : d.transfer.acks = s.acks
  out : d.out = s.out

/-- What a call on the send buffer makes of `d`. -/
def called (d : EndToEnd.State) (session : Sender.Session) : EndToEnd.State :=
  { d with transfer := { d.transfer with sender := session } }

theorem Orderly.called {d : EndToEnd.State} (horderly : Orderly d)
    {c : Sender.Call} {session : Sender.Session}
    (hcall : d.transfer.sender.call c = some session)
    (henabled : Transfer.enabled d.transfer (.send c))
    (hguard : EndToEnd.undisturbed d (.send c)) :
    Orderly (called d session) := by
  refine horderly.step (l := .send c) ⟨hguard, ⟨henabled, ?_⟩, ?_⟩
  · rw [Transfer.State.step, hcall]
    rfl
  · exact (List.append_nil _).symm

/-- A chunk given to the buffer of `tcpdc` is given to that of the sender. -/
theorem Couples.addData {s : State} {d : EndToEnd.State}
    (hcouples : Couples s d) (horderly : Orderly d) {t t' : Rounds.State}
    {temp : List UInt8} (hadd : t.addData temp = some t') {n : ℕ}
    (hn : n ≤ temp.length) (hbread : t.bread = n)
    (hcbuffer : t.cbuffer = s.tcpdc.cbuffer)
    (haccepted : t.accepted = s.tcpdc.accepted)
    (hchunk : n = 0 → 0 < used s.tcpdc.cbuffer) :
    ∃ session, Orderly (called d session) ∧ session.cbuffer = t'.cbuffer ∧
      session.accepted = t'.accepted.flatten ∧ session.sent = s.sent := by
  rw [Rounds.State.addData, Option.map_eq_some_iff] at hadd
  obtain ⟨⟨result, freed, cbuffer⟩, hadd, heq⟩ := hadd
  rw [hbread, ← Rounds.addData_take _ hn, hcbuffer, ← hcouples.cbuffer] at hadd
  have hlength : (temp.take n).length = n := List.length_take_of_le hn
  have hcall : d.transfer.sender.call (.addData (temp.take n)) = some
      { d.transfer.sender with
        cbuffer := cbuffer
        accepted := if result = 1 then d.transfer.sender.accepted ++ temp.take n
          else d.transfer.sender.accepted
        packets := d.transfer.sender.packets ++
          created d.transfer.sender.cbuffer cbuffer
        freed := d.transfer.sender.freed ++ freed.map PackNode.seqnum } := by
    rw [Sender.Session.call, hlength, hadd]
    rfl
  refine ⟨_, horderly.called hcall trivial ⟨?_, id⟩, ?_⟩
  · intro chunk hsame hempty
    have hnil : temp.take n = [] := (Sender.Call.addData.inj hsame).trans hempty
    rw [hcouples.cbuffer]
    exact hchunk (by rw [← hlength, hnil, List.length_nil])
  · dsimp only at heq ⊢
    by_cases hresult : result = 1
    · rw [if_pos hresult] at heq ⊢
      subst heq
      refine ⟨rfl, ?_, hcouples.sent⟩
      rw [hcouples.accepted, haccepted, hbread, Int.toNat_natCast,
        List.flatten_append, List.flatten_singleton]
    · rw [if_neg hresult] at heq ⊢
      subst heq
      exact ⟨rfl, hcouples.accepted.trans (by rw [haccepted]), hcouples.sent⟩

/-- A step of `tcpdc` is one of the sender, or changes nothing there. -/
theorem Couples.tcpdc {s s' : State} {d : EndToEnd.State}
    (hcouples : Couples s d) {session : Sender.Session}
    (hcbuffer : session.cbuffer = s'.tcpdc.cbuffer)
    (haccepted : session.accepted = s'.tcpdc.accepted.flatten)
    (hsent : session.sent = s'.sent) (hsbuffer : s'.sbuffer = s.sbuffer)
    (hacks : s'.acks = s.acks) (hout : s'.out = s.out) :
    Couples s' (called d session) where
  cbuffer := hcbuffer
  accepted := haccepted
  sent := hsent
  sbuffer := hcouples.sbuffer.trans hsbuffer.symm
  acks := hcouples.acks.trans hacks.symm
  out := hcouples.out.trans hout.symm

theorem Couples.same {s s' : State} {d : EndToEnd.State}
    (hcouples : Couples s d) (hcbuffer : s'.tcpdc.cbuffer = s.tcpdc.cbuffer)
    (haccepted : s'.tcpdc.accepted = s.tcpdc.accepted)
    (hsent : s'.sent = s.sent) (hsbuffer : s'.sbuffer = s.sbuffer)
    (hacks : s'.acks = s.acks) (hout : s'.out = s.out) : Couples s' d where
  cbuffer := hcouples.cbuffer.trans hcbuffer.symm
  accepted := hcouples.accepted.trans (by rw [haccepted])
  sent := hcouples.sent.trans hsent.symm
  sbuffer := hcouples.sbuffer.trans hsbuffer.symm
  acks := hcouples.acks.trans hacks.symm
  out := hcouples.out.trans hout.symm

theorem Couples.retry {s : State} {d : EndToEnd.State}
    {datagrams : List (List UInt8)} (hcouples : Couples s d)
    (horderly : Orderly d) (hinorder : InOrder datagrams s) {temp : List UInt8}
    {t : Rounds.State} (hlength : temp.length = 1000)
    (hretry : s.tcpdc.retry temp = some t) :
    ∃ d', Orderly d' ∧ Couples { s with tcpdc := t, place := .host } d' := by
  rw [Rounds.State.retry] at hretry
  split at hretry
  · rename_i hstored
    obtain ⟨datagram, -, hbread, hshort⟩ := hinorder.waiting hstored
    have hpos := hinorder.positive hstored
    obtain ⟨session, hreach, hcbuffer, haccepted, hsent⟩ :=
      hcouples.addData horderly hretry (hshort.trans hlength.ge) hbread rfl rfl
        (fun hzero => by omega)
    exact ⟨_, hreach, hcouples.tcpdc hcbuffer haccepted hsent rfl rfl rfl⟩
  · cases hretry
    exact ⟨d, horderly, hcouples.same rfl rfl rfl rfl rfl rfl⟩

theorem Couples.recvHost {s : State} {d : EndToEnd.State}
    (hcouples : Couples s d) (horderly : Orderly d) {temp datagram : List UInt8}
    {host : List (List UInt8)} {t : Rounds.State}
    (hfree : s.tcpdc.tempStored = false)
    (hempty : datagram = [] → 0 < used s.tcpdc.cbuffer)
    (hrecv : s.tcpdc.recvHost temp (some (some datagram)) = some t) :
    ∃ d', Orderly d' ∧
      Couples { s with host := host, tcpdc := t, place := .remote } d' := by
  simp only [Rounds.State.recvHost, hfree, Bool.false_eq_true, if_false]
    at hrecv
  have hzero : (datagram.take 1000).length = 0 → 0 < used s.tcpdc.cbuffer := by
    intro hzero
    rw [List.length_take] at hzero
    exact hempty (List.eq_nil_of_length_eq_zero (by omega))
  obtain ⟨session, hreach, hcbuffer, haccepted, hsent⟩ :=
    hcouples.addData horderly hrecv (by simp) rfl rfl rfl hzero
  exact ⟨_, hreach, hcouples.tcpdc hcbuffer haccepted hsent rfl rfl rfl⟩

theorem Couples.recvACK {s : State} {d : EndToEnd.State}
    (hcouples : Couples s d) (horderly : Orderly d) {ack : UInt32}
    {stop : Timespec} {t : Rounds.State} (hack : ack ∈ s.acks)
    (hguard : undisturbed s (.recvACK ack stop))
    (hrecv : s.tcpdc.recvACK (ack, stop) = some t) :
    ∃ d', Orderly d' ∧ Couples { s with tcpdc := t } d' := by
  rw [Rounds.State.recvACK, ← hcouples.cbuffer,
    Option.map_eq_some_iff] at hrecv
  obtain ⟨⟨result, freed, cbuffer⟩, hrecv, rfl⟩ := hrecv
  have hcall : ∃ session, d.transfer.sender.call
      (.recvACK (seqnumOf ack) stop) = some session ∧
      session.cbuffer = cbuffer ∧
      session.accepted = d.transfer.sender.accepted ∧
      session.sent = d.transfer.sender.sent := by
    rw [Sender.Session.call, hrecv]
    exact ⟨_, rfl, rfl, rfl, rfl⟩
  obtain ⟨session, hcall, hcbuffer, haccepted, hsent⟩ := hcall
  refine ⟨_, horderly.called hcall ⟨ack, hcouples.acks ▸ hack, rfl⟩
    ⟨by simp, hguard _ hcouples.cbuffer⟩, ?_⟩
  exact hcouples.tcpdc hcbuffer (haccepted.trans hcouples.accepted)
    (hsent.trans hcouples.sent) rfl rfl rfl

theorem Couples.sendWindow {s : State} {d : EndToEnd.State}
    (hcouples : Couples s d) (horderly : Orderly d) {clock : ℕ → Timespec}
    {sents : List Sent} {cbuffer : CBuffer}
    (hsend : s.tcpdc.cbuffer.sendWindow clock = some (sents, cbuffer)) :
    ∃ d', Orderly d' ∧
      Couples { s with
        tcpdc := { s.tcpdc with cbuffer := cbuffer }
        sent := s.sent ++ sents
        place := .round } d' := by
  rw [← hcouples.cbuffer] at hsend
  have hcall : d.transfer.sender.call (.sendWindow clock) = some
      { d.transfer.sender with
        cbuffer := cbuffer
        sent := d.transfer.sender.sent ++ sents } := by
    rw [Sender.Session.call, hsend]
    rfl
  refine ⟨_, horderly.called hcall trivial ⟨by simp, id⟩, ?_⟩
  exact hcouples.tcpdc rfl hcouples.accepted
    (congrArg (· ++ sents) hcouples.sent) rfl rfl rfl

theorem Couples.arrive {s : State} {d : EndToEnd.State}
    (hcouples : Couples s d) (horderly : Orderly d) {packet : Datagram}
    {remote : SockAddr} {memory : ℤ → UInt8} {buffer tempbuf : ℤ}
    {acks : List UInt32} {sbuffer : SBuffer}
    (hguard : undisturbed s (.arrive packet remote memory buffer tempbuf))
    (henabled : enabled s (.arrive packet remote memory buffer tempbuf))
    (hcalls : acknowledge s.sbuffer
      (remoteisset memory buffer tempbuf (frame remote packet)) =
        some (acks, sbuffer)) :
    ∃ d', Orderly d' ∧
      Couples { s with sbuffer := sbuffer, acks := acks ++ s.acks } d' := by
  rw [← hcouples.sbuffer] at hcalls
  refine ⟨{ d with transfer := { d.transfer with
      sbuffer := sbuffer, acks := acks ++ d.transfer.acks } },
    horderly.step (l := .arrive packet remote memory buffer tempbuf)
      ⟨?_, ⟨?_, ?_⟩, (List.append_nil _).symm⟩, ?_⟩
  · rw [EndToEnd.undisturbed, hcouples.sbuffer]
    exact hguard
  · rw [Transfer.enabled, hcouples.sent]
    exact henabled
  · rw [Transfer.State.step, hcalls]
    rfl
  · exact ⟨hcouples.cbuffer, hcouples.accepted, hcouples.sent, rfl,
      congrArg (acks ++ ·) hcouples.acks, hcouples.out⟩

theorem Couples.hostisset {s : State} {d : EndToEnd.State}
    (hcouples : Couples s d) (horderly : Orderly d) {size : ℕ} {count : ℤ}
    {bytes : List UInt8} {sbuffer : SBuffer} (ftps : Ftps.Progress)
    (hrequest : s.sbuffer.requestData size = some (count, bytes, sbuffer)) :
    ∃ d', Orderly d' ∧
      Couples { s with
        sbuffer := sbuffer, ftps := ftps, out := s.out ++ bytes } d' := by
  rw [← hcouples.sbuffer] at hrequest
  refine ⟨⟨{ d.transfer with sbuffer := sbuffer }, d.out ++ bytes⟩,
    horderly.step (l := .requestData size)
      ⟨trivial, ⟨trivial, ?_⟩, ?_⟩, ?_⟩
  · rw [Transfer.State.step, hrequest]
    rfl
  · rw [EndToEnd.handed, hrequest]
    rfl
  · exact ⟨hcouples.cbuffer, hcouples.accepted, hcouples.sent, rfl,
      hcouples.acks, congrArg (· ++ bytes) hcouples.out⟩

theorem Couples.step {creates : List UInt8 → Bool}
    {datagrams : List (List UInt8)} {s s' : State} {d : EndToEnd.State}
    {e : Event} (hcouples : Couples s d) (horderly : Orderly d)
    (hinorder : InOrder datagrams s) (hguard : undisturbed s e)
    (henabled : enabled s e) (hstep : s.step creates e = some s') :
    ∃ d', Orderly d' ∧ Couples s' d' := by
  cases e with
  | ftpcSend =>
      rw [State.step] at hstep
      split at hstep
      · cases hstep
      · cases hstep
        exact ⟨d, horderly, hcouples.same rfl rfl rfl rfl rfl rfl⟩
  | ftpcRecv =>
      cases hstep
      exact ⟨d, horderly, hcouples.same rfl rfl rfl rfl rfl rfl⟩
  | lose =>
      cases hstep
      exact ⟨d, horderly, hcouples.same rfl rfl rfl rfl rfl rfl⟩
  | retry temp =>
      obtain ⟨t, hretry, rfl⟩ := Option.map_eq_some_iff.1 hstep
      exact hcouples.retry horderly hinorder henabled.2 hretry
  | recvHost temp =>
      rw [State.step] at hstep
      split at hstep
      · cases hstep
      · rename_i datagram host hhost
        obtain ⟨t, hrecv, rfl⟩ := Option.map_eq_some_iff.1 hstep
        refine hcouples.recvHost horderly henabled.2.1 ?_ hrecv
        rintro rfl
        exact hguard (by rw [hhost]; rfl)
  | recvFails =>
      obtain ⟨t, hrecv, rfl⟩ := Option.map_eq_some_iff.1 hstep
      simp only [Rounds.State.recvHost, henabled.2, Bool.false_eq_true,
        if_false] at hrecv
      cases hrecv
      exact ⟨d, horderly, hcouples.same rfl rfl rfl rfl rfl rfl⟩
  | recvACK ack stop =>
      obtain ⟨t, hrecv, rfl⟩ := Option.map_eq_some_iff.1 hstep
      exact hcouples.recvACK horderly henabled.2 hguard hrecv
  | timerExpire exp =>
      cases hstep
      refine ⟨_, horderly.called (c := .timerExpire (seqnumOf exp)) rfl trivial
        ⟨by simp, id⟩, ?_⟩
      exact hcouples.tcpdc (congrArg (CBuffer.timerExpire · _) hcouples.cbuffer)
        hcouples.accepted hcouples.sent rfl rfl rfl
  | proceed =>
      cases hstep
      exact ⟨d, horderly, hcouples.same rfl rfl rfl rfl rfl rfl⟩
  | sendWindow clock =>
      obtain ⟨⟨sents, cbuffer⟩, hsend, rfl⟩ := Option.map_eq_some_iff.1 hstep
      exact hcouples.sendWindow horderly hsend
  | arrive packet remote memory buffer tempbuf =>
      obtain ⟨⟨acks, sbuffer⟩, hcalls, rfl⟩ := Option.map_eq_some_iff.1 hstep
      exact hcouples.arrive horderly hguard henabled hcalls
  | hostisset =>
      obtain ⟨size, -, hstep⟩ := Option.bind_eq_some_iff.1 hstep
      obtain ⟨⟨count, bytes, sbuffer⟩, hrequest, hstep⟩ :=
        Option.bind_eq_some_iff.1 hstep
      obtain ⟨ftps, -, rfl⟩ := Option.map_eq_some_iff.1 hstep
      exact hcouples.hostisset horderly ftps hrequest

/-! ## Whole rounds -/

section

variable {creates : List UInt8 → Bool} {filename file : List UInt8}

/-- The acknowledgements of one round, one after the other. -/
theorem recvACKs_reachable {acks : List (UInt32 × Timespec)} :
    ∀ {s : State} {t : Rounds.State},
      (copy creates filename file).Reachable s → s.place = .remote →
      (∀ ack ∈ acks, ack.1 ∈ s.acks) →
      acks.foldlM Rounds.State.recvACK s.tcpdc = some t →
      (copy creates filename file).Reachable { s with tcpdc := t } := by
  induction acks with
  | nil =>
      intro s t hreach _ _ hfold
      cases hfold
      exact hreach
  | cons ack acks ih =>
      intro s t hreach hplace hacks hfold
      obtain ⟨mid, hrecv, hrest⟩ := Option.bind_eq_some_iff.1 hfold
      rw [List.forall_mem_cons] at hacks
      have hnext : (copy creates filename file).Reachable
          { s with tcpdc := mid } := by
        refine hreach.step (l := .recvACK ack.1 ack.2) ⟨⟨hplace, hacks.1⟩, ?_⟩
        rw [State.step, hrecv]
        rfl
      exact @ih { s with tcpdc := mid } t hnext hplace hacks.2 hrest

theorem timerExpires_reachable {expirations : List UInt32} {s : State}
    (hreach : (copy creates filename file).Reachable s)
    (hplace : s.place = .timer) :
    (copy creates filename file).Reachable
      { s with tcpdc :=
          expirations.foldl Rounds.State.timerExpire s.tcpdc } := by
  induction expirations generalizing s with
  | nil => exact hreach
  | cons exp expirations ih =>
      have hnext : (copy creates filename file).Reachable
          { s with tcpdc := s.tcpdc.timerExpire exp } :=
        hreach.step (l := .timerExpire exp) ⟨hplace, rfl⟩
      exact ih hnext hplace

/-- What can be read from `ftpc` in a round. -/
def Readable (s : State) : Option (Option (List UInt8)) → Prop
  | some (some datagram) => s.host.head? = some datagram
  | _ => True

theorem recvHost_reachable {s : State} {t : Rounds.State} {temp : List UInt8}
    {host : Option (Option (List UInt8))}
    (hreach : (copy creates filename file).Reachable s)
    (hplace : s.place = .host) (hlength : temp.length = 1000)
    (hreadable : Readable s host) (hrecv : s.tcpdc.recvHost temp host = some t) :
    ∃ s', (copy creates filename file).Reachable s' ∧ s'.tcpdc = t ∧
      s'.place = .remote ∧ s'.acks = s.acks := by
  have hproceed : (copy creates filename file).Reachable
      { s with place := .remote } :=
    hreach.step (l := .proceed) ⟨by simp [enabled, hplace], by
      rw [State.step, hplace]; rfl⟩
  rcases host with - | - | datagram
  · simp only [Rounds.State.recvHost, Option.some.injEq] at hrecv
    exact ⟨_, hproceed, hrecv, rfl, rfl⟩
  · cases hstored : s.tcpdc.tempStored with
    | true =>
        simp only [Rounds.State.recvHost, hstored, if_true,
          Option.some.injEq] at hrecv
        exact ⟨_, hproceed, hrecv, rfl, rfl⟩
    | false =>
        refine ⟨{ s with tcpdc := t, place := .remote },
          hreach.step (l := .recvFails) ⟨⟨hplace, hstored⟩, ?_⟩, rfl, rfl, rfl⟩
        rw [State.step]
        simp only [Rounds.State.recvHost, hstored, Bool.false_eq_true,
          if_false] at hrecv ⊢
        rw [hrecv]
        rfl
  · cases hstored : s.tcpdc.tempStored with
    | true =>
        simp only [Rounds.State.recvHost, hstored, if_true,
          Option.some.injEq] at hrecv
        exact ⟨_, hproceed, hrecv, rfl, rfl⟩
    | false =>
        obtain ⟨rest, hhost⟩ := List.head?_eq_some_iff.1 hreadable
        refine ⟨{ s with host := rest, tcpdc := t, place := .remote },
          hreach.step (l := .recvHost temp) ⟨⟨hplace, hstored, hlength⟩, ?_⟩,
          rfl, rfl, rfl⟩
        rw [State.step]
        simp only [hhost, hrecv, Option.map_some]

/-- A call of `receiveAndSend` is a run, in which nothing else happens. -/
theorem receiveAndSend_reachable {s : State} {round : Rounds.Round}
    {t : Rounds.State} (hreach : (copy creates filename file).Reachable s)
    (hplace : s.place = .round) (hreadable : Readable s round.host)
    (hacks : ∀ ack ∈ round.acks, ack.1 ∈ s.acks)
    (hround : s.tcpdc.receiveAndSend round = some t) :
    ∃ s', (copy creates filename file).Reachable s' ∧ s'.tcpdc = t ∧
      s'.place = .round := by
  obtain ⟨tried, hretry, hround⟩ := Option.bind_eq_some_iff.1 hround
  obtain ⟨taken, hrecv, hround⟩ := Option.bind_eq_some_iff.1 hround
  obtain ⟨acked, hacked, hsend⟩ := Option.bind_eq_some_iff.1 hround
  have htried : (copy creates filename file).Reachable
      { s with tcpdc := tried, place := .host } := by
    refine hreach.step (l := .retry round.temp)
      ⟨⟨hplace, round.temp_length⟩, ?_⟩
    rw [State.step, hretry]
    rfl
  obtain ⟨s₁, htaken, rfl, hremote, hsame⟩ := recvHost_reachable htried rfl
    round.temp_length hreadable hrecv
  have hacked := recvACKs_reachable htaken hremote (hsame ▸ hacks) hacked
  have htimer : (copy creates filename file).Reachable
      { s₁ with tcpdc := acked, place := .timer } :=
    hacked.step (l := .proceed) ⟨by simp [enabled, hremote], by
      rw [State.step, hremote]; rfl⟩
  have hexpired : (copy creates filename file).Reachable
      { s₁ with
        tcpdc := round.expirations.foldl Rounds.State.timerExpire acked
        place := .timer } :=
    timerExpires_reachable htimer rfl
  have hwindow : (copy creates filename file).Reachable
      { s₁ with
        tcpdc := round.expirations.foldl Rounds.State.timerExpire acked
        place := .window } :=
    hexpired.step (l := .proceed) ⟨by simp [enabled], rfl⟩
  rw [Rounds.State.sendWindow, Option.map_eq_some_iff] at hsend
  obtain ⟨⟨sents, cbuffer⟩, hsend, rfl⟩ := hsend
  refine ⟨{ s₁ with
      tcpdc := { round.expirations.foldl Rounds.State.timerExpire acked with
        cbuffer := cbuffer }
      place := .round
      sent := s₁.sent ++ sents },
    hwindow.step (l := .sendWindow round.clock) ⟨rfl, ?_⟩, rfl, rfl⟩
  rw [State.step, hsend]
  rfl

end

end UdpTransfer.Copy
