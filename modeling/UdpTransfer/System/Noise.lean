import UdpTransfer.System.Copied
import UdpTransfer.Wire.Detection

/-!
# Copies over a noisy network

The network may also alter the bits of a packet on its way, and packets may
arrive that are not full.  As long as the checksum is seen not to fit, this does
to the copy what the loss of the packet does.
-/

namespace UdpTransfer.Copy

open UdpTransfer.Bytes
open UdpTransfer.Memory
open UdpTransfer.Runs
open UdpTransfer.Wire
open UdpTransfer.Receiver

inductive NoisyEvent where
  | clean (e : Event)
  /-- `received` arrives in place of a packet. -/
  | garble (d : Datagram) (remote : SockAddr) (received : List UInt8)
      (memory : ℤ → UInt8) (buffer tempbuf : ℤ)
  /-- Fewer bytes arrive than a full packet has. -/
  | short (received : List UInt8) (memory : ℤ → UInt8) (buffer tempbuf : ℤ)

def noisyEnabled (s : State) : NoisyEvent → Prop
  | .clean e => enabled s e
  | .garble d remote received _ _ _ =>
      (∃ sent ∈ s.sent, sent.datagram = d) ∧ d.payload.length = 1000 ∧
        Garbled (frame remote d) received
  | .short received _ _ _ => received.length < 1024

/-- What `tcpds` does with any datagram. -/
def State.receive (s : State) (received : List UInt8) (memory : ℤ → UInt8)
    (buffer tempbuf : ℤ) : Option State :=
  (acknowledge s.sbuffer (remoteisset memory buffer tempbuf received)).map
    fun (acks, sbuffer) =>
      { s with sbuffer := sbuffer, acks := acks ++ s.acks }

def State.noisyStep (creates : List UInt8 → Bool) (s : State) :
    NoisyEvent → Option State
  | .clean e => s.step creates e
  | .garble _ _ received memory buffer tempbuf =>
      s.receive received memory buffer tempbuf
  | .short received memory buffer tempbuf =>
      s.receive received memory buffer tempbuf

def noisyCopy (creates : List UInt8 → Bool) (filename file : List UInt8) :
    System State NoisyEvent where
  initial := (copy creates filename file).initial
  step s e s' := noisyEnabled s e ∧ s.noisyStep creates e = some s'

/-- The bytes in front of `tempbuf`, which is not set for a packet that is not
full, happen to fit the word that is taken for their checksum. -/
def StrayFits (memory : ℤ → UInt8) (buffer tempbuf : ℤ)
    (received : List UInt8) : Prop :=
  crc32 crcpoly (bytesAt (overlay memory buffer received)
      (tempbuf - received.length) received.length) =
    wordAt (overlay memory buffer received) (tempbuf + 16)

/-- The conditions are those on a step of the copy. -/
def noisyUndisturbed (s : State) : NoisyEvent → Prop
  | .clean e => undisturbed s e
  | .garble _ _ _ _ _ _ => True
  | .short received memory buffer tempbuf =>
      ¬ StrayFits memory buffer tempbuf received

theorem rejects_of_not_strayFits {memory : ℤ → UInt8} {buffer tempbuf : ℤ}
    {received : List UInt8} (hshort : received.length < 1024)
    (hstray : ¬ StrayFits memory buffer tempbuf received) :
    rejects (remoteisset memory buffer tempbuf received) := by
  rw [rejects_iff]
  by_cases hnil : received = []
  · subst hnil
    rfl
  · rw [remoteisset_of_length_lt hshort hnil, checkPacket, Int.toNat_natCast]
    exact if_neg hstray

theorem State.receive_of_rejects (s : State) {received : List UInt8}
    {memory : ℤ → UInt8} {buffer tempbuf : ℤ}
    (hrejects : rejects (remoteisset memory buffer tempbuf received)) :
    s.receive received memory buffer tempbuf = some s := by
  rw [State.receive, hrejects.2]
  rfl

/-- A step that the copy cannot take changes nothing. -/
theorem noisyStep_cases {creates : List UInt8 → Bool}
    {datagrams : List (List UInt8)} {s s' : State} {e : NoisyEvent}
    (hcopies : Copies creates datagrams s) (hguard : noisyUndisturbed s e)
    (henabled : noisyEnabled s e) (hstep : s.noisyStep creates e = some s') :
    s' = s ∨ ∃ e', undisturbed s e' ∧ enabled s e' ∧
      s.step creates e' = some s' := by
  cases e with
  | clean e => exact .inr ⟨e, hguard, henabled, hstep⟩
  | garble d remote received memory buffer tempbuf =>
      obtain ⟨hsent, hpayload, hgarbled⟩ := henabled
      have hrejects := hgarbled.rejects memory buffer tempbuf remote hpayload
        (hcopies.crc32_eq hsent)
      rw [State.noisyStep, s.receive_of_rejects hrejects] at hstep
      exact .inl (Option.some.inj hstep).symm
  | short received memory buffer tempbuf =>
      have hrejects := rejects_of_not_strayFits henabled hguard
      rw [State.noisyStep, s.receive_of_rejects hrejects] at hstep
      exact .inl (Option.some.inj hstep).symm

/-- Over a noisy network the copy comes to the same states. -/
theorem noisyCopy_reachable_iff (creates : List UInt8 → Bool)
    (filename file : List UInt8) (s : State) :
    ((noisyCopy creates filename file).restrict
        noisyUndisturbed).Reachable s ↔
      ((copy creates filename file).restrict undisturbed).Reachable s := by
  constructor
  · intro hreach
    refine System.Reachable.of_steps ?_ ?_ hreach
    · intro s hstart
      exact hstart
    · rintro s e s' hreach ⟨hguard, henabled, hstep⟩
      obtain ⟨datagrams, -, hcopies⟩ := copies_reachable hreach
      exact noisyStep_cases hcopies hguard henabled hstep
  · intro hreach
    refine System.Reachable.of_steps ?_ ?_ hreach
    · intro s hstart
      exact hstart
    · rintro s e s' - hstep
      exact .inr ⟨.clean e, hstep⟩

end UdpTransfer.Copy
