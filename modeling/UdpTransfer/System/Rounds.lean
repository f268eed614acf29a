import UdpTransfer.Sender.Backlog

/-!
# Rounds of tcpdc

`receiveAndSend` is called over and over.  A chunk that does not fit into the
buffer stays in the array `temp`, for which each call has its own, and only its
length and the fact that it waits are kept in between.  What is given to the
buffer later on is whatever the array then holds.
-/

namespace UdpTransfer.Rounds

open UdpTransfer.Memory
open UdpTransfer.Runs
open UdpTransfer.Sender
open UdpTransfer.Sender.CBuffer
open UdpTransfer.Wire

/-- What a call of `receiveAndSend` meets with. -/
structure Round where
  /-- The array `temp` on entry. -/
  temp : List UInt8
  temp_length : temp.length = 1000
  /-- What `RECV` returns on `hostSockfd`, if that can be read; `none` stands
  for a failure. -/
  host : Option (Option (List UInt8))
  acks : List (UInt32 × Timespec)
  expirations : List UInt32
  clock : ℕ → Timespec

structure State where
  cbuffer : CBuffer
  tempStored : Bool
  bread : ℤ
  /-- The datagrams that came from `ftpc`. -/
  received : List (List UInt8)
  /-- The chunks for which `addData` returned 1. -/
  accepted : List (List UInt8)
  /-- How many times `'1'` was sent to `ftpc`. -/
  replies : ℕ

namespace State

def start : State where
  cbuffer := CBuffer.start
  tempStored := false
  bread := 0
  received := []
  accepted := []
  replies := 0

/-- `addData(temp, bread)` and what follows on its result. -/
def addData (t : State) (temp : List UInt8) : Option State :=
  (t.cbuffer.addData temp t.bread).map fun (result, _, s) =>
    if result = 1 then
      { t with
        cbuffer := s
        tempStored := false
        accepted := t.accepted ++ [temp.take t.bread.toNat]
        replies := t.replies + 1 }
    else
      { t with cbuffer := s, tempStored := true }

def retry (t : State) (temp : List UInt8) : Option State :=
  if t.tempStored then t.addData temp else some t

/-- Reads from `hostSockfd` into the 1000 bytes of `temp`. -/
def recvHost (t : State) (temp : List UInt8) :
    Option (Option (List UInt8)) → Option State
  | none => some t
  | some datagram =>
      if t.tempStored then
        some t
      else
        match datagram with
        | none => some { t with bread := -1 }
        | some datagram =>
            let chunk := datagram.take 1000
            { t with
              bread := chunk.length
              received := t.received ++ [chunk] }.addData
                (chunk ++ temp.drop chunk.length)

def recvACK (t : State) (ack : UInt32 × Timespec) : Option State :=
  (t.cbuffer.recvACK (seqnumOf ack.1) ack.2).map fun (_, _, s) =>
    { t with cbuffer := s }

def timerExpire (t : State) (exp : UInt32) : State :=
  { t with cbuffer := t.cbuffer.timerExpire (seqnumOf exp) }

def sendWindow (t : State) (clock : ℕ → Timespec) : Option State :=
  (t.cbuffer.sendWindow clock).map fun (_, s) => { t with cbuffer := s }

def receiveAndSend (t : State) (round : Round) : Option State :=
  (t.retry round.temp).bind fun t =>
    (t.recvHost round.temp round.host).bind fun t =>
      (round.acks.foldlM recvACK t).bind fun t =>
        (round.expirations.foldl timerExpire t).sendWindow round.clock

end State

def rounds : System State Round where
  initial t := t = State.start
  step t round t' := t.receiveAndSend round = some t'

/-- The datagram that waits to be given to the buffer. -/
def State.pending (t : State) : List (List UInt8) :=
  if t.tempStored then t.received.getLast?.toList else []

/-- Nothing that came from `ftpc` is lost, changed or doubled, and each datagram
taken has been answered. -/
structure Lossless (t : State) : Prop where
  received_eq : t.received = t.accepted ++ t.pending
  replies_eq : t.replies = t.accepted.length

/-- If the datagram that waits will be taken now, `temp` still begins with it. -/
def KeepsTemp (t : State) (round : Round) : Prop :=
  t.tempStored = true → t.bread ≤ |t.cbuffer.spaceLeft.1| →
    t.received.getLast? = some (round.temp.take t.bread.toNat)

/-! ## The parts of a round -/

/-- What the loops over acknowledgements, notices and packets leave alone. -/
structure SameHost (t t' : State) : Prop where
  tempStored : t'.tempStored = t.tempStored
  bread : t'.bread = t.bread
  received : t'.received = t.received
  accepted : t'.accepted = t.accepted
  replies : t'.replies = t.replies

theorem SameHost.refl (t : State) : SameHost t t := ⟨rfl, rfl, rfl, rfl, rfl⟩

theorem SameHost.trans {t t' t'' : State} (hfirst : SameHost t t')
    (hsecond : SameHost t' t'') : SameHost t t'' :=
  ⟨hsecond.tempStored.trans hfirst.tempStored,
    hsecond.bread.trans hfirst.bread,
    hsecond.received.trans hfirst.received,
    hsecond.accepted.trans hfirst.accepted,
    hsecond.replies.trans hfirst.replies⟩

theorem recvACK_same {t t' : State} {ack : UInt32 × Timespec}
    (hrecv : t.recvACK ack = some t') : SameHost t t' := by
  rw [State.recvACK, Option.map_eq_some_iff] at hrecv
  obtain ⟨⟨_, _, s⟩, -, rfl⟩ := hrecv
  exact ⟨rfl, rfl, rfl, rfl, rfl⟩

theorem foldlM_recvACK_same {acks : List (UInt32 × Timespec)} :
    ∀ {t t' : State}, acks.foldlM State.recvACK t = some t' → SameHost t t' := by
  induction acks with
  | nil =>
      intro t t' hfold
      cases hfold
      exact .refl t
  | cons ack acks ih =>
      intro t t' hfold
      obtain ⟨mid, hrecv, hrest⟩ := Option.bind_eq_some_iff.1 hfold
      exact (recvACK_same hrecv).trans (ih hrest)

theorem foldl_timerExpire_same (expirations : List UInt32) (t : State) :
    SameHost t (expirations.foldl State.timerExpire t) := by
  induction expirations generalizing t with
  | nil => exact .refl t
  | cons exp expirations ih =>
      have hfirst : SameHost t (t.timerExpire exp) := ⟨rfl, rfl, rfl, rfl, rfl⟩
      exact hfirst.trans (ih _)

theorem sendWindow_same {t t' : State} {clock : ℕ → Timespec}
    (hsend : t.sendWindow clock = some t') : SameHost t t' := by
  rw [State.sendWindow, Option.map_eq_some_iff] at hsend
  obtain ⟨⟨_, s⟩, -, rfl⟩ := hsend
  exact ⟨rfl, rfl, rfl, rfl, rfl⟩

/-- `addData` returns 1 where `spaceLeft` finds room, and 0 elsewhere. -/
theorem fst_addData {s : CBuffer} {data : List UInt8} {size result : ℤ}
    {freed : List PackNode} {s' : CBuffer}
    (hadd : s.addData data size = some (result, freed, s')) :
    result = if size ≤ |s.spaceLeft.1| then 1 else 0 := by
  rw [CBuffer.addData] at hadd
  dsimp only at hadd
  split at hadd
  · rename_i hroom
    obtain ⟨mid, -, hcheck⟩ := Option.bind_eq_some_iff.1 hadd
    obtain ⟨⟨_, _⟩, -, heq⟩ := Option.map_eq_some_iff.1 hcheck
    rw [if_pos hroom]
    exact (congrArg Prod.fst heq).symm
  · rename_i hroom
    obtain ⟨⟨_, _⟩, -, heq⟩ := Option.map_eq_some_iff.1 hadd
    rw [if_neg hroom]
    exact (congrArg Prod.fst heq).symm

/-- A chunk is taken and answered, or it waits. -/
theorem State.addData_eq_some {t t' : State} {temp : List UInt8}
    (hadd : t.addData temp = some t') :
    t'.bread = t.bread ∧ t'.received = t.received ∧
      (t.bread ≤ |t.cbuffer.spaceLeft.1| ∧ t'.tempStored = false ∧
          t'.accepted = t.accepted ++ [temp.take t.bread.toNat] ∧
          t'.replies = t.replies + 1 ∨
        ¬ t.bread ≤ |t.cbuffer.spaceLeft.1| ∧ t'.tempStored = true ∧
          t'.accepted = t.accepted ∧ t'.replies = t.replies) := by
  rw [State.addData, Option.map_eq_some_iff] at hadd
  obtain ⟨⟨result, freed, s⟩, hadd, heq⟩ := hadd
  have hresult := fst_addData hadd
  by_cases hroom : t.bread ≤ |t.cbuffer.spaceLeft.1|
  · rw [if_pos hroom] at hresult
    subst hresult
    dsimp only at heq
    rw [if_pos rfl] at heq
    subst heq
    exact ⟨rfl, rfl, .inl ⟨hroom, rfl, rfl, rfl⟩⟩
  · rw [if_neg hroom] at hresult
    subst hresult
    dsimp only at heq
    rw [if_neg (by norm_num)] at heq
    subst heq
    exact ⟨rfl, rfl, .inr ⟨hroom, rfl, rfl, rfl⟩⟩

/-- The parts of a round that give no chunk to the buffer come last. -/
theorem State.receiveAndSend_eq_some {t t' : State} {round : Round}
    (hround : t.receiveAndSend round = some t') :
    ∃ tried taken, t.retry round.temp = some tried ∧
      tried.recvHost round.temp round.host = some taken ∧ SameHost taken t' := by
  obtain ⟨tried, hretry, hround⟩ := Option.bind_eq_some_iff.1 hround
  obtain ⟨taken, hrecv, hround⟩ := Option.bind_eq_some_iff.1 hround
  obtain ⟨acked, hacks, hsend⟩ := Option.bind_eq_some_iff.1 hround
  exact ⟨tried, taken, hretry, hrecv, (foldlM_recvACK_same hacks).trans
    ((foldl_timerExpire_same _ _).trans (sendWindow_same hsend))⟩

/-! ## The datagram that waits -/

/-- `bread` is the length of the datagram that waits. -/
def Waiting (t : State) : Prop :=
  t.tempStored = true → ∃ datagram, t.received.getLast? = some datagram ∧
    t.bread = datagram.length ∧ datagram.length ≤ 1000

theorem SameHost.waiting {t t' : State} (hsame : SameHost t t')
    (hwaiting : Waiting t) : Waiting t' := by
  rw [Waiting, hsame.tempStored, hsame.received, hsame.bread]
  exact hwaiting

theorem Waiting.retry {t t' : State} {temp : List UInt8}
    (hwaiting : Waiting t) (hretry : t.retry temp = some t') : Waiting t' := by
  rw [State.retry] at hretry
  split at hretry
  · rename_i hstored
    obtain ⟨hbread, hreceived, -⟩ := State.addData_eq_some hretry
    intro _
    rw [hreceived, hbread]
    exact hwaiting hstored
  · cases hretry
    exact hwaiting

theorem Waiting.recvHost {t t' : State} {temp : List UInt8}
    {host : Option (Option (List UInt8))} (hwaiting : Waiting t)
    (hrecv : t.recvHost temp host = some t') : Waiting t' := by
  rcases host with - | - | datagram <;> simp only [State.recvHost] at hrecv
  · cases hrecv
    exact hwaiting
  · split at hrecv
    · cases hrecv
      exact hwaiting
    · rename_i hfree
      cases hrecv
      exact fun h => absurd h hfree
  · split at hrecv
    · cases hrecv
      exact hwaiting
    · obtain ⟨hbread, hreceived, -⟩ := State.addData_eq_some hrecv
      intro _
      refine ⟨datagram.take 1000, ?_, hbread, List.length_take_le _ _⟩
      rw [hreceived]
      simp

theorem waiting_reachable {t : State} (hreach : rounds.Reachable t) :
    Waiting t := by
  refine hreach.invariant ?_ ?_
  · rintro t rfl h
    cases h
  · intro t round t' hwaiting hround
    obtain ⟨tried, taken, hretry, hrecv, hsame⟩ :=
      State.receiveAndSend_eq_some hround
    exact hsame.waiting ((hwaiting.retry hretry).recvHost hrecv)

/-! ## Nothing is lost -/

theorem SameHost.lossless {t t' : State} (hsame : SameHost t t')
    (hlossless : Lossless t) : Lossless t' := by
  have hpending : t'.pending = t.pending := by
    rw [State.pending, State.pending, hsame.tempStored, hsame.received]
  refine ⟨?_, ?_⟩
  · rw [hsame.received, hsame.accepted, hpending, hlossless.received_eq]
  · rw [hsame.replies, hsame.accepted, hlossless.replies_eq]

theorem lossless_start : Lossless State.start := ⟨rfl, rfl⟩

/-- What waits is taken as it was received, or goes on waiting. -/
theorem Lossless.retry {t t' : State} {round : Round} (hlossless : Lossless t)
    (htemp : KeepsTemp t round) (hretry : t.retry round.temp = some t') :
    Lossless t' := by
  rw [State.retry] at hretry
  split at hretry
  · rename_i hstored
    obtain ⟨hbread, hreceived, ⟨hroom, hfree, haccepted, hreplies⟩ |
      ⟨hroom, hwaits, haccepted, hreplies⟩⟩ := State.addData_eq_some hretry
    · have hlast := htemp hstored hroom
      have hpending : t.pending = [round.temp.take t.bread.toNat] := by
        rw [State.pending, if_pos hstored, hlast]
        rfl
      refine ⟨?_, ?_⟩
      · rw [State.pending, hfree, hreceived, haccepted, hlossless.received_eq,
          hpending]
        simp
      · rw [hreplies, haccepted, hlossless.replies_eq, List.length_append,
          List.length_singleton]
    · have hsame : SameHost t t' :=
        ⟨hwaits.trans hstored.symm, hbread, hreceived, haccepted, hreplies⟩
      exact hsame.lossless hlossless
  · cases hretry
    exact hlossless

/-- A datagram is taken as it comes, or begins to wait. -/
theorem Lossless.recvHost {t t' : State} {temp : List UInt8}
    {host : Option (Option (List UInt8))} (hlossless : Lossless t)
    (hrecv : t.recvHost temp host = some t') : Lossless t' := by
  rcases host with - | - | datagram <;> simp only [State.recvHost] at hrecv
  · cases hrecv
    exact hlossless
  · split at hrecv
    · cases hrecv
      exact hlossless
    · cases hrecv
      exact ⟨hlossless.received_eq, hlossless.replies_eq⟩
  · split at hrecv
    · cases hrecv
      exact hlossless
    · rename_i hfree
      have hreceived := hlossless.received_eq
      rw [State.pending, if_neg hfree, List.append_nil] at hreceived
      obtain ⟨-, hlog, ⟨-, hfree', haccepted, hreplies⟩ |
        ⟨-, hwaits, haccepted, hreplies⟩⟩ := State.addData_eq_some hrecv
      · simp only [Int.toNat_natCast, List.take_left'] at haccepted
        refine ⟨?_, ?_⟩
        · rw [State.pending, hfree', hlog, haccepted, hreceived]
          simp
        · rw [hreplies, haccepted, hlossless.replies_eq, List.length_append,
            List.length_singleton]
      · refine ⟨?_, ?_⟩
        · rw [State.pending, hwaits, hlog, haccepted, hreceived]
          simp
        · rw [hreplies, haccepted, hlossless.replies_eq]

/-- Nothing is lost in a run in which `temp` keeps a chunk that waits. -/
theorem lossless_of_keepsTemp (t : State)
    (hreach : (rounds.restrict KeepsTemp).Reachable t) : Lossless t := by
  refine hreach.invariant ?_ ?_
  · rintro t rfl
    exact lossless_start
  · intro t round t' hlossless hstep
    obtain ⟨tried, taken, hretry, hrecv, hsame⟩ :=
      State.receiveAndSend_eq_some hstep.2
    exact hsame.lossless ((hlossless.retry hstep.1 hretry).recvHost hrecv)

/-- Both logs only grow. -/
theorem State.recvHost_append {t t' : State} {temp : List UInt8}
    {host : Option (Option (List UInt8))}
    (hrecv : t.recvHost temp host = some t') :
    t.received <+: t'.received ∧ t.accepted <+: t'.accepted := by
  rcases host with - | - | datagram <;> simp only [State.recvHost] at hrecv
  · cases hrecv
    exact ⟨List.prefix_rfl, List.prefix_rfl⟩
  · split at hrecv <;>
    · cases hrecv
      exact ⟨List.prefix_rfl, List.prefix_rfl⟩
  · split at hrecv
    · cases hrecv
      exact ⟨List.prefix_rfl, List.prefix_rfl⟩
    · obtain ⟨-, hreceived, ⟨-, -, haccepted, -⟩ | ⟨-, -, haccepted, -⟩⟩ :=
        State.addData_eq_some hrecv
      · rw [hreceived, haccepted]
        exact ⟨List.prefix_append _ _, List.prefix_append _ _⟩
      · rw [hreceived, haccepted]
        exact ⟨List.prefix_append _ _, List.prefix_rfl⟩

/-- A chunk that `temp` did not keep is given to the buffer for good. -/
theorem Lossless.keepsTemp {t t' : State} {round : Round}
    (hlossless : Lossless t) (hwaiting : Waiting t)
    (hround : t.receiveAndSend round = some t') (hlossless' : Lossless t') :
    KeepsTemp t round := by
  intro hstored hroom
  obtain ⟨tried, taken, hretry, hrecv, hsame⟩ :=
    State.receiveAndSend_eq_some hround
  rw [State.retry, if_pos hstored] at hretry
  obtain ⟨-, hreceived, ⟨-, -, haccepted, -⟩ | ⟨h, -⟩⟩ :=
    State.addData_eq_some hretry
  · obtain ⟨datagram, hlast, -⟩ := hwaiting hstored
    have hold := hlossless.received_eq
    rw [State.pending, if_pos hstored, hlast, Option.toList_some] at hold
    obtain ⟨⟨more, hmore⟩, ⟨others, hothers⟩⟩ := State.recvHost_append hrecv
    have hnew := hlossless'.received_eq
    rw [hsame.received, hsame.accepted, ← hmore, ← hothers, hreceived,
      haccepted, hold] at hnew
    simp only [List.append_assoc, List.append_cancel_left_eq, List.cons_append,
      List.cons.injEq] at hnew
    rw [hlast, hnew.1]
  · exact absurd hroom h

/-! ## Sessions of the sender -/

/-- `addData` looks at no more of the array than `size` bytes. -/
theorem addData_take (s : CBuffer) {data : List UInt8} {n : ℕ}
    (hn : n ≤ data.length) : s.addData (data.take n) n = s.addData data n := by
  have hstore : ∀ s : CBuffer, s.store (data.take n) n = s.store data n := by
    intro s
    rw [CBuffer.store, CBuffer.store, memcpyIn_take hn (by omega)]
    split
    · rfl
    · rename_i hwrap
      rw [memcpyIn_take hn (by omega)]
      congr 1
      funext cirbuffer
      rw [memcpyIn_take hn (by omega)]
  rw [CBuffer.addData, CBuffer.addData]
  simp only [hstore]

/-- The buffer is that of a session, which has taken the same bytes. -/
def Follows (t : State) : Prop :=
  ∃ session, sender.Reachable session ∧ session.cbuffer = t.cbuffer ∧
    session.accepted = t.accepted.flatten

theorem Follows.addData {t t' : State} {temp : List UInt8} {n : ℕ}
    (hfollows : Follows t) (hn : n ≤ temp.length) (hbread : t.bread = n)
    (hadd : t.addData temp = some t') : Follows t' := by
  obtain ⟨session, hreach, hcbuffer, haccepted⟩ := hfollows
  rw [State.addData, Option.map_eq_some_iff] at hadd
  obtain ⟨⟨result, freed, s⟩, hadd, heq⟩ := hadd
  rw [hbread, ← addData_take _ hn, ← hcbuffer] at hadd
  have hlength : (temp.take n).length = n := List.length_take_of_le hn
  refine ⟨_, hreach.step (l := .addData (temp.take n)) (by
    change Session.call session (.addData (temp.take n)) = some _
    rw [Session.call, hlength, hadd]
    rfl), ?_⟩
  dsimp only at heq ⊢
  by_cases hresult : result = 1
  · rw [if_pos hresult] at heq ⊢
    subst heq
    refine ⟨rfl, ?_⟩
    rw [haccepted, hbread, Int.toNat_natCast, List.flatten_append,
      List.flatten_singleton]
  · rw [if_neg hresult] at heq ⊢
    subst heq
    exact ⟨rfl, haccepted⟩

theorem Follows.recvACK {t t' : State} {ack : UInt32 × Timespec}
    (hfollows : Follows t) (hrecv : t.recvACK ack = some t') : Follows t' := by
  obtain ⟨session, hreach, hcbuffer, haccepted⟩ := hfollows
  rw [State.recvACK, Option.map_eq_some_iff] at hrecv
  obtain ⟨⟨result, freed, s⟩, hrecv, rfl⟩ := hrecv
  rw [← hcbuffer] at hrecv
  refine ⟨_, hreach.step (l := .recvACK (seqnumOf ack.1) ack.2) (by
    change Session.call session (.recvACK (seqnumOf ack.1) ack.2) = some _
    rw [Session.call, hrecv]
    rfl), ?_⟩
  exact ⟨rfl, haccepted⟩

theorem Follows.timerExpire {t : State} (hfollows : Follows t) (exp : UInt32) :
    Follows (t.timerExpire exp) := by
  obtain ⟨session, hreach, hcbuffer, haccepted⟩ := hfollows
  exact ⟨_, hreach.step (l := .timerExpire (seqnumOf exp)) rfl,
    congrArg (CBuffer.timerExpire · _) hcbuffer, haccepted⟩

theorem Follows.sendWindow {t t' : State} {clock : ℕ → Timespec}
    (hfollows : Follows t) (hsend : t.sendWindow clock = some t') :
    Follows t' := by
  obtain ⟨session, hreach, hcbuffer, haccepted⟩ := hfollows
  rw [State.sendWindow, Option.map_eq_some_iff] at hsend
  obtain ⟨⟨sents, s⟩, hsend, rfl⟩ := hsend
  rw [← hcbuffer] at hsend
  refine ⟨_, hreach.step (l := .sendWindow clock) (by
    change Session.call session (.sendWindow clock) = some _
    rw [Session.call, hsend]
    rfl), ?_⟩
  exact ⟨rfl, haccepted⟩

theorem Follows.retry {t t' : State} {round : Round} (hfollows : Follows t)
    (hwaiting : Waiting t) (hretry : t.retry round.temp = some t') :
    Follows t' := by
  rw [State.retry] at hretry
  split at hretry
  · rename_i hstored
    obtain ⟨datagram, -, hbread, hlength⟩ := hwaiting hstored
    exact hfollows.addData (hlength.trans round.temp_length.ge) hbread hretry
  · cases hretry
    exact hfollows

theorem Follows.recvHost {t t' : State} {temp : List UInt8}
    {host : Option (Option (List UInt8))} (hfollows : Follows t)
    (hrecv : t.recvHost temp host = some t') : Follows t' := by
  rcases host with - | - | datagram <;> simp only [State.recvHost] at hrecv
  · cases hrecv
    exact hfollows
  · split at hrecv <;>
    · cases hrecv
      exact hfollows
  · split at hrecv
    · cases hrecv
      exact hfollows
    · let chunk := datagram.take 1000
      have hread : Follows { t with
          bread := chunk.length
          received := t.received ++ [chunk] } := hfollows
      refine hread.addData (n := chunk.length) ?_ rfl hrecv
      rw [List.length_append]
      exact Nat.le_add_right _ _

theorem foldlM_recvACK_follows {acks : List (UInt32 × Timespec)} :
    ∀ {t t' : State}, Follows t → acks.foldlM State.recvACK t = some t' →
      Follows t' := by
  induction acks with
  | nil =>
      intro t t' hfollows hfold
      cases hfold
      exact hfollows
  | cons ack acks ih =>
      intro t t' hfollows hfold
      obtain ⟨mid, hrecv, hrest⟩ := Option.bind_eq_some_iff.1 hfold
      exact ih (hfollows.recvACK hrecv) hrest

theorem foldl_timerExpire_follows (expirations : List UInt32) {t : State}
    (hfollows : Follows t) :
    Follows (expirations.foldl State.timerExpire t) := by
  induction expirations generalizing t with
  | nil => exact hfollows
  | cons exp expirations ih => exact ih (hfollows.timerExpire exp)

/-- Every run of rounds is a session of the sender. -/
theorem follows_reachable {t : State} (hreach : rounds.Reachable t) :
    Follows t := by
  refine hreach.invariant_with (J := Waiting) ?_ ?_ ?_
  · exact fun t hreach => waiting_reachable hreach
  · rintro t rfl
    exact ⟨Session.start, .initial rfl, rfl, rfl⟩
  · intro t round t' hwaiting hfollows hround
    obtain ⟨tried, hretry, hround⟩ := Option.bind_eq_some_iff.1 hround
    obtain ⟨taken, hrecv, hround⟩ := Option.bind_eq_some_iff.1 hround
    obtain ⟨acked, hacks, hsend⟩ := Option.bind_eq_some_iff.1 hround
    have htaken := (hfollows.retry hwaiting hretry).recvHost hrecv
    exact (foldl_timerExpire_follows _
      (foldlM_recvACK_follows htaken hacks)).sendWindow hsend

/-! ## A datagram that waits -/

/-- A full array or datagram of one byte. -/
def filled (byte : UInt8) : List UInt8 := List.replicate 1000 byte

theorem length_filled (byte : UInt8) : (filled byte).length = 1000 :=
  List.length_replicate

/-- A round in which no timer runs out. -/
def quietRound (byte : UInt8) (host : Option (Option (List UInt8)))
    (acks : List (UInt32 × Timespec)) : Round where
  temp := filled byte
  temp_length := length_filled byte
  host := host
  acks := acks
  expirations := []
  clock := fun _ => ⟨0, 0⟩

theorem State.addData_isSome {t : State} {temp : List UInt8} {result : ℤ}
    {freed : List PackNode} {s : CBuffer}
    (hadd : t.cbuffer.addData temp t.bread = some (result, freed, s)) :
    ∃ t', t.addData temp = some t' ∧ t'.cbuffer = s := by
  rw [State.addData, hadd]
  by_cases hresult : result = 1
  · exact ⟨_, congrArg some (if_pos hresult), rfl⟩
  · exact ⟨_, congrArg some (if_neg hresult), rfl⟩

/-- A round with a datagram of full size, which returns as its calls do. -/
theorem receiveAndSend_datagram {t : State} {round : Round}
    {datagram : List UInt8} (hfree : t.tempStored = false)
    (hhost : round.host = some (some datagram))
    (hlength : datagram.length = 1000) (hnone : round.expirations = [])
    {result : ℤ} {freed : List PackNode} {sents : List Sent}
    {s s₁ s₂ : CBuffer}
    (hadd : t.cbuffer.addData datagram datagram.length =
      some (result, freed, s))
    (hacks : ∀ u : State, u.cbuffer = s → ∃ v,
      round.acks.foldlM State.recvACK u = some v ∧ v.cbuffer = s₁)
    (hsend : s₁.sendWindow round.clock = some (sents, s₂)) :
    ∃ t', t.receiveAndSend round = some t' ∧ t'.cbuffer = s₂ ∧
      t'.received = t.received ++ [datagram] ∧ t'.bread = 1000 ∧
      (1000 ≤ |t.cbuffer.spaceLeft.1| → t'.tempStored = false) ∧
      (¬ 1000 ≤ |t.cbuffer.spaceLeft.1| → t'.tempStored = true) := by
  have hchunk : datagram.take 1000 = datagram :=
    List.take_of_length_le hlength.le
  have hrest : datagram ++ round.temp.drop datagram.length = datagram := by
    rw [hlength, ← round.temp_length, List.drop_length, List.append_nil]
  let read : State := { t with
    bread := datagram.length
    received := t.received ++ [datagram] }
  have hread : t.recvHost round.temp (some (some datagram)) =
      read.addData datagram := by
    simp only [State.recvHost, hfree, Bool.false_eq_true, if_false, hchunk,
      hrest]
    rfl
  obtain ⟨taken, htaken, hcbuffer⟩ := @State.addData_isSome read _ _ _ _ hadd
  obtain ⟨hbread, hreceived, hcases⟩ := State.addData_eq_some htaken
  obtain ⟨acked, hacked, hcbuffer'⟩ := hacks taken hcbuffer
  have hsame := foldlM_recvACK_same hacked
  refine ⟨{ acked with cbuffer := s₂ }, ?_, rfl, ?_, ?_, ?_, ?_⟩
  · rw [State.receiveAndSend, State.retry, hfree, hhost, hnone]
    simp only [Bool.false_eq_true, if_false, Option.bind_some, hread, htaken,
      hacked, List.foldl_nil, State.sendWindow, hcbuffer', hsend]
    rfl
  · exact hsame.received.trans hreceived
  · refine hsame.bread.trans (hbread.trans ?_)
    simp only [read, hlength]
    rfl
  · intro hroom
    rcases hcases with ⟨-, hfree', -⟩ | ⟨hfull, -⟩
    · exact hsame.tempStored.trans hfree'
    · refine absurd ?_ hfull
      simpa [read, hlength] using hroom
  · intro hfull
    rcases hcases with ⟨hroom, -⟩ | ⟨-, hwaits, -⟩
    · refine absurd ?_ hfull
      simpa [read, hlength] using hroom
    · exact hsame.tempStored.trans hwaits

/-- `k` datagrams of full size have come in, and none is acknowledged. -/
structure Behind (k : ℕ) (t : State) (h : History) : Prop where
  reachable : (rounds.restrict KeepsTemp).Reachable t
  backlog : Backlog h
  cbuffer_eq : h.session.cbuffer = t.cbuffer
  free : t.tempStored = false
  space : t.cbuffer.spaceLeft.1 = 64000 - 1000 * k

theorem Behind.keepsTemp {k : ℕ} {t : State} {h : History}
    (hbehind : Behind k t h) (round : Round) : KeepsTemp t round := by
  intro hstored
  rw [hbehind.free] at hstored
  cases hstored

theorem Behind.next {k : ℕ} {t : State} {h : History} (hbehind : Behind k t h)
    (hk : k < 64) : ∃ t' h', Behind (k + 1) t' h' := by
  have hspace := hbehind.space
  let round := quietRound 0 (some (some (filled 0))) []
  obtain ⟨result, freed, mid, hadd, hmid, hroom, -⟩ :=
    hbehind.backlog.addData (length_filled 0)
  obtain ⟨sents, h', hsend, hback, hkeep⟩ := hmid.sendWindow round.clock
  rw [hbehind.cbuffer_eq] at hadd hroom
  obtain ⟨-, hless⟩ := hroom (by omega)
  obtain ⟨t', hround, hcbuffer, -, -, hfree, -⟩ :=
    @receiveAndSend_datagram t round _ hbehind.free rfl (length_filled 0) rfl
      _ _ _ _ _ _ hadd (fun u hu => ⟨u, rfl, hu⟩) hsend
  refine ⟨t', h', hbehind.reachable.step ⟨hbehind.keepsTemp round, hround⟩,
    hback, hcbuffer.symm,
    hfree ?_, ?_⟩
  · rw [le_abs]
    omega
  · rw [hcbuffer, hkeep, hless, hspace]
    push_cast
    omega

theorem exists_behind_one : ∃ t h, Behind 1 t h := by
  let round := quietRound 0 (some (some (filled 0))) []
  have hfilled : ((filled 0).length : ℤ) = 1000 := by
    exact_mod_cast length_filled 0
  obtain ⟨added, hcall, hloaded, hslots⟩ :=
    drained_start.addData Nat.ofNat_pos hfilled
  have hpacktimes : Session.start.cbuffer.packtimes =
      { bsn := 0, on := 0, timestart := ⟨0, 0⟩ } ::
        List.replicate 19 { bsn := 0, on := 0, timestart := ⟨0, 0⟩ } := rfl
  obtain ⟨sent, hcall', hloaded', -⟩ :=
    hloaded.sendWindow Nat.ofNat_pos (hslots.trans hpacktimes) rfl
  obtain ⟨result, freed, hadd⟩ := addData_of_call hcall
  obtain ⟨sents, hsend⟩ := sendWindow_of_call hcall'
  obtain ⟨h₁, hreach₁, hcbuffer₁, hchunks₁⟩ :=
    @History.addData History.start _ _ _ _ (.initial rfl) hadd
  have hfull : ∀ size ∈ h₁.chunks, size = 1000 := by
    intro size hsize
    rw [hchunks₁] at hsize
    split at hsize
    · exact (List.mem_singleton.1 hsize).trans (length_filled 0)
    · cases hsize
  obtain ⟨sents', h₂, hsend₂, hreach₂, hchunks₂, -⟩ :=
    History.sendWindow hreach₁ hfull round.clock
  rw [hcbuffer₁] at hsend₂
  obtain ⟨-, hcbuffer₂⟩ :=
    Prod.mk.inj (Option.some.inj (hsend.symm.trans hsend₂))
  obtain ⟨t', hround, hcbuffer, -, -, hfree, -⟩ :=
    @receiveAndSend_datagram State.start round _ rfl rfl (length_filled 0) rfl
      _ _ _ _ _ _ hadd (fun u hu => ⟨u, rfl, hu⟩) hsend
  refine ⟨t', h₂, .step (.initial rfl)
    ⟨fun hstored => (Bool.false_ne_true hstored).elim, hround⟩, ⟨hreach₂, ?_, ?_, ?_⟩, ?_,
    hfree (by decide), ?_⟩
  · rw [hchunks₂]
    exact hfull
  · rw [← hcbuffer₂, hloaded'.packseq_eq, hloaded'.nodes_eq]
    rfl
  · rw [← hcbuffer₂, hloaded'.nodes_eq]
    exact ⟨_, _, rfl, rfl, rfl, rfl⟩
  · rw [← hcbuffer₂, hcbuffer]
  · rw [hcbuffer, spaceLeft, hloaded'.dstart_eq, hloaded'.dend_eq]
    rfl

theorem exists_behind {k : ℕ} (hlow : 1 ≤ k) (hhigh : k ≤ 64) :
    ∃ t h, Behind k t h := by
  induction k, hlow using Nat.le_induction with
  | base => exact exists_behind_one
  | succ k _ ih =>
      obtain ⟨t, h, hbehind⟩ := ih (by omega)
      exact hbehind.next (by omega)

/-- A datagram that waits while packet 1 is acknowledged. -/
theorem exists_waiting : ∃ t h, (rounds.restrict KeepsTemp).Reachable t ∧
    recorder.Reachable h ∧
    (∀ size ∈ h.chunks, size = 1000) ∧ h.session.cbuffer = t.cbuffer ∧
    t.tempStored = true ∧ t.bread = 1000 ∧
    t.received.getLast? = some (filled 0) ∧
    1000 ≤ t.cbuffer.spaceLeft.1 ∧ 0 ≤ t.cbuffer.packseq ∧
    t.cbuffer.packseq ≤ 1000 := by
  obtain ⟨t, h, hbehind⟩ := @exists_behind 64 (by norm_num) le_rfl
  have hfull := hbehind.space
  let round := quietRound 0 (some (some (filled 0))) [(1, ⟨0, 0⟩)]
  obtain ⟨result, freed, h₁, hadd, hback₁, -, hsame₁⟩ :=
    hbehind.backlog.addData (length_filled 0)
  rw [hbehind.cbuffer_eq] at hadd hsame₁
  obtain ⟨result', freed', h₂, hrecv, hreach₂, hchunks₂, hspace₂, hlow, hhigh⟩ :=
    hback₁.recvACK (by rw [(hsame₁ (by omega)).2, hfull]; rfl) ⟨0, 0⟩
  have hchunks : ∀ size ∈ h₂.chunks, size = 1000 := by
    rw [hchunks₂]
    exact hback₁.chunks
  obtain ⟨sents, h₃, hsend, hreach₃, hchunks₃, htrans⟩ :=
    History.sendWindow hreach₂ hchunks round.clock
  have hsame := htrans.sameBytes.1
  have hacks : ∀ u : State, u.cbuffer = h₁.session.cbuffer → ∃ v,
      round.acks.foldlM State.recvACK u = some v ∧
        v.cbuffer = h₂.session.cbuffer := by
    intro u hu
    refine ⟨{ u with cbuffer := h₂.session.cbuffer }, ?_, rfl⟩
    change (u.recvACK (1, ⟨0, 0⟩)).bind some = _
    have hnum : seqnumOf 1 = 1 := rfl
    rw [State.recvACK, hnum, hu, hrecv]
    rfl
  obtain ⟨t', hround, hcbuffer, hreceived, hbread, -, hwaits⟩ :=
    @receiveAndSend_datagram t round _ hbehind.free rfl (length_filled 0) rfl
      _ _ _ _ _ _ hadd hacks hsend
  refine ⟨t', h₃,
    hbehind.reachable.step ⟨hbehind.keepsTemp round, hround⟩, hreach₃,
    by rw [hchunks₃]; exact hchunks, hcbuffer.symm, hwaits ?_, hbread, ?_, ?_,
    ?_, ?_⟩
  · rw [hfull]
    norm_num
  · rw [hreceived]
    simp
  · rw [hcbuffer, fst_spaceLeft, hsame.used_eq, ← fst_spaceLeft]
    exact hspace₂
  · rw [hcbuffer, hsame.packseq_eq]
    exact hlow
  · rw [hcbuffer, hsame.packseq_eq]
    exact hhigh

/-- The datagram is tried again, whatever the array then holds, and the round
returns. -/
theorem exists_retried (byte : UInt8) : ∃ t t',
    (rounds.restrict KeepsTemp).Reachable t ∧ t.tempStored = true ∧
      t.bread = 1000 ∧ t.received.getLast? = some (filled 0) ∧
      1000 ≤ t.cbuffer.spaceLeft.1 ∧
      t.receiveAndSend (quietRound byte none []) = some t' := by
  obtain ⟨t, h, hreach, hrecord, hchunks, hcbuffer, hstored, hbread, hlast,
    hroom, hlow, hhigh⟩ := exists_waiting
  let round := quietRound byte none []
  have hs := window_reachable (session_reachable hrecord)
  rw [hcbuffer] at hs
  have hlength := length_filled byte
  have hcount : Countable t.cbuffer (filled byte) := by
    refine ⟨fun hnil => ?_, ?_⟩
    · rw [hnil] at hlength
      cases hlength
    · rw [packetsFor]
      omega
  obtain ⟨freed, s, hadd, -⟩ := (hcount.accounted hs hlow (by omega)
    hlength.le).accepted (by rw [length_filled]; exact hroom)
  obtain ⟨h₁, hrecord₁, hcbuffer₁, hchunks₁⟩ :=
    History.addData hrecord (by rw [hcbuffer]; exact hadd)
  have hfull : ∀ size ∈ h₁.chunks, size = 1000 := by
    rw [hchunks₁]
    intro size hsize
    rcases List.mem_append.1 hsize with hsize | hsize
    · exact hchunks size hsize
    · rw [if_pos rfl] at hsize
      exact (List.mem_singleton.1 hsize).trans hlength
  obtain ⟨sents, h₂, hsend, -⟩ := History.sendWindow hrecord₁ hfull round.clock
  rw [hcbuffer₁] at hsend
  rw [length_filled] at hadd
  obtain ⟨tried, htried, hmid⟩ := @State.addData_isSome t (filled byte) _ _ _
    (by rw [hbread]; exact hadd)
  refine ⟨t, { tried with cbuffer := h₂.session.cbuffer }, hreach, hstored,
    hbread, hlast, hroom, ?_⟩
  rw [State.receiveAndSend, State.retry, if_pos hstored]
  change ((t.addData (filled byte)).bind fun t =>
    (some t).bind fun t => (some t).bind fun t =>
      t.sendWindow round.clock) = _
  rw [htried, Option.bind_some, Option.bind_some, Option.bind_some,
    State.sendWindow, hmid, hsend]
  rfl

/-- The array still holds the datagram when it is tried again. -/
theorem lossless_retried : ∃ t t',
    (rounds.restrict KeepsTemp).Reachable t ∧ t.tempStored = true ∧
      t.bread ≤ |t.cbuffer.spaceLeft.1| ∧
      t.receiveAndSend (quietRound 0 none []) = some t' ∧ Lossless t' := by
  obtain ⟨t, t', hreach, hstored, hbread, hlast, hroom, hround⟩ :=
    exists_retried 0
  have hkeeps : KeepsTemp t (quietRound 0 none []) := by
    intro _ _
    rw [hlast, hbread]
    change some (filled 0) = some ((filled 0).take 1000)
    rw [List.take_of_length_le (length_filled 0).le]
  refine ⟨t, t', hreach, hstored, ?_, hround,
    lossless_of_keepsTemp t' (hreach.step ⟨hkeeps, hround⟩)⟩
  rw [hbread, le_abs]
  exact .inl hroom

/-- The array holds other bytes when the datagram is tried again. -/
theorem not_lossless : ¬ ∀ t, rounds.Reachable t → Lossless t := by
  intro hall
  obtain ⟨t, t', hreach, hstored, hbread, hlast, hroom, hround⟩ :=
    exists_retried 1
  have hreach := hreach.of_restrict
  have hkept := (hall t hreach).keepsTemp (waiting_reachable hreach) hround
    (hall _ (hreach.step hround)) hstored (by
      rw [hbread, le_abs]
      exact .inl hroom)
  rw [hlast, hbread, Option.some.injEq] at hkept
  have hbyte := congrArg List.head? hkept
  cases hbyte

end UdpTransfer.Rounds
