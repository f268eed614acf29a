import UdpTransfer.System.Copied

/-!
# Copies in order

Where no packet overtakes another on its way, `tcpds` hands out 65 packets and
no more.  With its header, a file of more than 64976 bytes takes more than these,
and is never copied.
-/

namespace UdpTransfer.Copy

open UdpTransfer.Runs
open UdpTransfer.Wire
open UdpTransfer.Receiver

variable {creates : List UInt8 → Bool} {filename file : List UInt8}

/-- The buffer of `tcpds` has come as far as packet `k`. -/
def LinedUp (k : ℤ) (s : State) : Prop :=
  Lined k s.sbuffer.toRing.dstart s.sbuffer.toRing.runs

/-- What is known of the buffer of `tcpds`, and how much it has handed out. -/
theorem Copies.receiver {datagrams : List (List UInt8)} {s : State}
    (hcopies : Copies creates datagrams s) :
    Merged s.sbuffer ∧
      Layout s.sbuffer.toRing.dstart s.sbuffer.toRing.runs ∧
      handedOut s.sbuffer.toRing.dstart s.sbuffer.toRing.runs =
        s.out.length := by
  obtain ⟨d, horderly, hcouples⟩ := hcopies.couples
  have hdelivers := EndToEnd.delivers_reachable horderly
  have hsafe := Transfer.safe_reachable
    (EndToEnd.transfer_reachable horderly.of_restrict)
  have hholding :=
    (hdelivers.faithful _ (EndToEnd.fits_filler _ 0)).holding
  rw [hcouples.sbuffer, hcouples.out] at hholding
  exact ⟨hcouples.sbuffer ▸ hsafe.has.merged, hholding.layout,
    hholding.handed⟩

theorem LinedUp.step {datagrams : List (List UInt8)} {s s' : State} {e : Event}
    {k : ℤ} (hlined : LinedUp k s) (hk : k ≤ 65)
    (hcopies : Copies creates datagrams s) (hnext : arrivesNext s e)
    (henabled : enabled s e) (hstep : s.step creates e = some s') :
    ∃ k' ≤ 65, LinedUp k' s' := by
  obtain ⟨hmerged, hlayout, -⟩ := hcopies.receiver
  rcases step_cases hstep with ⟨hsame, -, -⟩ |
    ⟨d, remote, memory, buffer, tempbuf, acks, rfl, hcalls, -, -⟩ |
    ⟨size, count, bytes, -, hrequest, -, -⟩
  · exact ⟨k, hk, by rw [LinedUp, hsame]; exact hlined⟩
  · rw [acknowledge_full henabled.2 (hcopies.crc32_eq henabled.1),
      Option.map_eq_some_iff] at hcalls
    obtain ⟨⟨result, sbuffer⟩, hadd, heq⟩ := hcalls
    obtain rfl : sbuffer = s'.sbuffer := congrArg Prod.snd heq
    exact Lined.addData hlined hk hmerged.sound hlayout
      (by rw [henabled.2]; rfl) hnext (hmerged.toRing_addData hadd)
  · exact ⟨k, hk, Lined.delivery hlined hlayout
      (hmerged.requestData hrequest).1⟩

theorem linedUp_reachable {s : State}
    (hreach : ((copy creates filename file).restrict inTurn).Reachable s) :
    ∃ k ≤ 65, LinedUp k s := by
  refine hreach.invariant_with (I := fun s => ∃ k ≤ 65, LinedUp k s)
    (J := fun s => ∃ datagrams, Copies creates datagrams s) ?_ ?_ ?_
  · intro s hreach
    obtain ⟨datagrams, -, hcopies⟩ :=
      copies_reachable (undisturbed_reachable hreach)
    exact ⟨datagrams, hcopies⟩
  · rintro s ⟨datagrams, -, rfl⟩
    refine ⟨0, by decide, ?_⟩
    rw [LinedUp, show (start datagrams).sbuffer = SBuffer.initHead from rfl,
      SBuffer.initHead_represents.toRing_eq]
    exact lined_initHead
  · rintro s e s' ⟨datagrams, hcopies⟩ ⟨k, hk, hlined⟩
      ⟨⟨-, hnext⟩, henabled, hstep⟩
    exact hlined.step hk hcopies hnext henabled hstep

/-- Where packets arrive in order, `ftps` gets at most 65000 bytes, and a file
that takes more is never copied: the packet behind the 65th is turned away, or
copied outside the buffer of `tcpds`. -/
theorem copy_bounded (creates : List UInt8 → Bool) (filename file : List UInt8)
    (s : State)
    (hreach : ((copy creates filename file).restrict inTurn).Reachable s)
    (hsize : file.length < 2147483648) :
    s.out.length ≤ 65000 ∧
      (∀ name written, s.ftps = .closed name written →
        file.length ≤ 64976) ∧
      ∀ seqnum data, 65 < seqnum → seqnum ≤ missing s.sbuffer.toRing →
        s.sbuffer.addData seqnum 1000 data = some (0, s.sbuffer) ∨
          ∀ payload, ¬ CopiesInBuffer payload s.sbuffer (.addData seqnum) := by
  obtain ⟨datagrams, hmain, hcopies⟩ :=
    copies_reachable (undisturbed_reachable hreach)
  obtain ⟨k, hk, hlined⟩ := linedUp_reachable hreach
  obtain ⟨hmerged, hlayout, hhanded⟩ := hcopies.receiver
  have hle := Lined.handedOut_le hlined
  have hout : s.out.length ≤ 65000 := by omega
  refine ⟨hout, fun name written hclosed => ?_, fun seqnum data hbeyond hnext =>
    Lined.refuses hlined hk hmerged hlayout hbeyond hnext data⟩
  obtain ⟨hall, -⟩ := hcopies.out_eq hmain hsize hclosed
  rw [hall, List.length_append, Ftps.length_header (Ftpc.length_nameField _)]
    at hout
  omega

theorem copy_bounded_onePacket : ∃ s,
    ((copy (fun _ => true) [97] (List.replicate 976 7)).restrict
      inTurn).Reachable s ∧
    s.ftps = .closed (target [97]) (List.replicate 976 7) ∧
    s.out.length ≤ 65000 ∧
    (List.replicate 976 (7 : UInt8)).length ≤ 64976 ∧
    ∀ seqnum data, 65 < seqnum → seqnum ≤ missing s.sbuffer.toRing →
      s.sbuffer.addData seqnum 1000 data = some (0, s.sbuffer) ∨
        ∀ payload, ¬ CopiesInBuffer payload s.sbuffer (.addData seqnum) := by
  obtain ⟨s, hreach, -, -, -, -, hclosed⟩ := @exists_copied (fun _ => true) [97]
    (List.replicate 976 7) (by simp) (by decide) List.length_replicate
    (by decide) rfl
  obtain ⟨hout, hbound, hbehind⟩ := copy_bounded _ _ _ s hreach
    (by rw [List.length_replicate]; omega)
  exact ⟨s, hreach, hclosed, hout, hbound _ _ hclosed, hbehind⟩

end UdpTransfer.Copy
