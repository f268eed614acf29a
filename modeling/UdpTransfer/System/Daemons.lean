import UdpTransfer.Core.Queues
import UdpTransfer.Sender.Session
import UdpTransfer.Timer.Ledger

/-!
# tcpdc and timerprocess

The two daemons are joined by two queues: commands one way, expiration notices
the other.  `tcpdc` goes through the parts of `receiveAndSend` in their order,
one call at a time, and between any two of them `timerprocess` may read a
command or let time pass.  For each packet under way one thing stands that will
have it sent again: a start command in the queue, a timer, or a notice in the
queue.
-/

namespace UdpTransfer.Daemons

open UdpTransfer.Queues
open UdpTransfer.Runs
open UdpTransfer.Sender
open UdpTransfer.Sender.CBuffer
open UdpTransfer.Timer
open UdpTransfer.Wire

/-- A datagram to `timerprocess`, as it decodes it. -/
inductive Command where
  | start (time : ℚ) (byteSeqNum : UInt32)
  | cancel (byteSeqNum : UInt32)
  deriving DecidableEq

/-- Where `receiveAndSend` has come to. -/
inductive Place where
  /-- At the top, between two rounds. -/
  | round
  | host
  | remote
  | timer
  /-- In `sendWindow`, at a node of the list. -/
  | window (i : ℕ)
  deriving DecidableEq

structure State where
  cbuffer : CBuffer
  tempStored : Bool
  bread : ℤ
  place : Place
  commands : List Command
  timers : Timers
  prev : ℚ
  expirations : List UInt32

inductive Event where
  /-- Tries the stored chunk again; `temp` is what the stack then holds. -/
  | retry (temp : List UInt8)
  /-- Takes a chunk from `ftpc`. -/
  | host (chunk : List UInt8)
  | recvACK (ack : UInt32) (stop : Timespec)
  | timerExpire
  /-- Goes on to the next part. -/
  | proceed
  /-- Comes to the next node of `sendWindow`. -/
  | sendWindow (clock : Timespec)
  /-- `timerprocess` reads a command. -/
  | command
  /-- `timerprocess` reads the clock. -/
  | decrement (now : ℚ)

namespace State

/-- After `initialize`, with the clock at `prev`. -/
def start (prev : ℚ) : State where
  cbuffer := CBuffer.start
  tempStored := false
  bread := 0
  place := .round
  commands := []
  timers := Timers.start
  prev := prev
  expirations := []

/-- Gives a chunk to the send buffer, and keeps it if it does not fit. -/
def addData (t : State) (chunk : List UInt8) : Option State :=
  (t.cbuffer.addData chunk chunk.length).map fun (result, _, s) =>
    { t with
      cbuffer := s
      tempStored := result ≠ 1
      bread := chunk.length }

def recvACK (t : State) (num : ℤ) (stop : Timespec) : Option State :=
  (t.cbuffer.recvACK num stop).map fun (_, _, s) =>
    { t with
      cbuffer := s
      commands := t.commands ++ [.cancel (UInt32.ofInt num)] }

/-- The part of `receiveAndSend` that follows, where there is nothing to read. -/
def next : Place → Option Place
  | .round => some .host
  | .host => some .remote
  | .remote => some .timer
  | .timer => some (.window 0)
  | .window _ => none

def step (t : State) : Event → Option State
  | .retry temp =>
      if t.place = .round ∧ t.tempStored ∧ temp.length = t.bread then
        (t.addData temp).map fun t => { t with place := .host }
      else
        none
  | .host chunk =>
      if t.place = .host ∧ ¬ t.tempStored ∧ chunk.length ≤ 1000 then
        (t.addData chunk).map fun t => { t with place := .remote }
      else
        none
  | .recvACK ack stop =>
      -- one datagram can bring several
      if t.place = .remote then
        t.recvACK (seqnumOf ack) stop
      else
        none
  | .timerExpire =>
      match t.expirations with
      | [] => none
      | exp :: rest =>
          if t.place = .timer then
            some { t with
              cbuffer := t.cbuffer.timerExpire (seqnumOf exp)
              expirations := rest
              place := .window 0 }
          else
            none
  | .proceed =>
      if t.place = .round ∧ t.tempStored then
        none
      else
        (next t.place).map fun place => { t with place := place }
  | .sendWindow clock =>
      match t.place with
      | .window i =>
          if i < t.cbuffer.nodes.length then
            (sendAt (fun _ => clock) ([], t.cbuffer) i).map fun (sents, s) =>
              { t with
                cbuffer := s
                commands := t.commands ++
                  sents.map fun sent => .start 1 (UInt32.ofInt sent.bsn)
                place := .window (i + 1) }
          else
            some { t with place := .round }
      | _ => none
  | .command =>
      match t.commands with
      | [] => none
      | .start time byteSeqNum :: rest =>
          (t.timers.insertValue time 0 byteSeqNum).map fun s =>
            { t with timers := s, commands := rest }
      | .cancel byteSeqNum :: rest =>
          (t.timers.removeValue byteSeqNum).map fun (_, _, s) =>
            { t with timers := s, commands := rest }
  | .decrement now =>
      (t.timers.decrement t.prev now).map fun (notices, s) =>
        { t with
          timers := s
          prev := now
          expirations := t.expirations ++ notices.map Notice.byteSeqNum }

end State

def daemons : System State Event where
  initial t := ∃ prev, t = State.start prev
  step t e t' := t.step e = some t'

/-- The command starts a timer with the number. -/
def Command.starts (num : UInt32) : Command → Bool
  | .start _ byteSeqNum => byteSeqNum = num
  | .cancel _ => false

/-- How many things stand for a number: start commands in the queue, timers in
the list, notices in the queue. -/
def State.standing (t : State) (num : UInt32) : ℕ :=
  t.commands.countP (Command.starts num) +
    t.timers.cells.countP (fun cell =>
      (t.timers.nodes cell).byteSeqNum = num) +
    t.expirations.count num

/-! ## sendWindow, node by node -/

theorem sendAt_append (clock : ℕ → Timespec) (sents : List Sent) (s : CBuffer)
    (i : ℕ) :
    sendAt clock (sents, s) i =
      (sendAt (fun _ => clock i) ([], s) i).map fun (new, s') =>
        (sents ++ new, s') := by
  simp only [sendAt]
  split
  · simp
  · split
    · simp
    · simp [Function.comp_def]

theorem sendAt_window {clock : ℕ → Timespec} {sents sents' : List Sent}
    {s s' : CBuffer} {i : ℕ} (hs : Window s)
    (hsend : sendAt clock (sents, s) i = some (sents', s')) :
    Window s' ∧ s'.nodes.length = s.nodes.length := by
  rcases sendAt_transmits hs hsend with
    ⟨-, rfl⟩ | ⟨sent, before, node, after, slot, -, htransmits⟩
  · exact ⟨hs, rfl⟩
  · refine ⟨htransmits.window hs, ?_⟩
    rw [htransmits.state_eq, htransmits.nodes_eq]
    simp [marked]

/-- Going through the nodes one by one does what `sendWindow` does. -/
theorem run_sendWindow {t : State} {clock : ℕ → Timespec} {sents : List Sent}
    {s : CBuffer} (hs : Window t.cbuffer)
    (hsend : t.cbuffer.sendWindow clock = some (sents, s)) :
    ((List.range t.cbuffer.nodes.length).map fun i =>
      Event.sendWindow (clock i)).foldlM State.step
        { t with place := .window 0 } =
      some { t with
        cbuffer := s
        commands := t.commands ++
          sents.map fun sent => .start 1 (UInt32.ofInt sent.bsn)
        place := .window t.cbuffer.nodes.length } := by
  have hall : ∀ k ≤ t.cbuffer.nodes.length, ∀ sents s,
      (List.range k).foldlM (sendAt clock) ([], t.cbuffer) = some (sents, s) →
      (Window s ∧ s.nodes.length = t.cbuffer.nodes.length) ∧
      ((List.range k).map fun i => Event.sendWindow (clock i)).foldlM State.step
          { t with place := .window 0 } =
        some { t with
          cbuffer := s
          commands := t.commands ++
            sents.map fun sent => .start 1 (UInt32.ofInt sent.bsn)
          place := .window k } := by
    intro k
    induction k with
    | zero =>
        intro _ sents s hfold
        cases hfold
        exact ⟨⟨hs, rfl⟩, by simp⟩
    | succ k ih =>
        intro hk sents s hfold
        rw [List.range_succ, List.foldlM_append] at hfold
        obtain ⟨⟨sents₀, s₀⟩, hfold, hat⟩ := Option.bind_eq_some_iff.1 hfold
        obtain ⟨⟨hs₀, hlength⟩, hrun⟩ := ih (by omega) sents₀ s₀ hfold
        simp only [List.foldlM_cons, List.foldlM_nil, bind_pure] at hat
        obtain ⟨hs', hlength'⟩ := sendAt_window hs₀ hat
        refine ⟨⟨hs', hlength'.trans hlength⟩, ?_⟩
        rw [sendAt_append, Option.map_eq_some_iff] at hat
        obtain ⟨⟨new, s'⟩, hat, heq⟩ := hat
        cases heq
        have hlt : k < s₀.nodes.length := by omega
        rw [List.range_succ, List.map_append, List.foldlM_append, hrun]
        simp [State.step, hlt, hat]
  exact (hall _ le_rfl sents s hsend).2

end UdpTransfer.Daemons
