import UdpTransfer.Sender.Packets
import UdpTransfer.System.Daemons

/-!
# Every packet under way has a timer

What stands for a packet number passes from the command queue to the delta list
and from there to the queue of notices, and is used up when the notice is read.
Nothing stands for a packet that is still to be sent, and one thing for a packet
under way.  A cancellation can take that one thing away only from a packet that
is acknowledged: where the packet has been sent again since, the new start
command is queued behind the cancellation.
-/

namespace UdpTransfer.Daemons

open UdpTransfer.Queues
open UdpTransfer.Runs
open UdpTransfer.Sender
open UdpTransfer.Sender.CBuffer
open UdpTransfer.Timer
open UdpTransfer.Wire

theorem ofInt_seqnumOf (num : UInt32) : UInt32.ofInt (seqnumOf num) = num := by
  have hmod : num.toBitVec.toInt % 2 ^ 32 = num.toNat := by
    have hlt : num.toNat < 2 ^ 32 := num.toNat_lt
    rw [BitVec.toInt_eq_toNat_bmod, UInt32.toNat_toBitVec, Int.bmod_eq_emod]
    split <;> omega
  change UInt32.ofNat (num.toBitVec.toInt % 2 ^ 32).toNat = num
  rw [hmod, Int.toNat_natCast, UInt32.ofNat_toNat]

/-- What stands for the packets of a list. -/
structure Covered (nodes : List PackNode) (packseq : ℤ)
    (commands : List Command) (standing : UInt32 → ℕ) : Prop where
  packseq_pos : 1 ≤ packseq
  packseq_le : packseq ≤ 2147483647
  bounds : ∀ node ∈ nodes, 1 ≤ node.seqnum ∧ node.seqnum < packseq
  single : ∀ num, standing num ≤ 1
  below : ∀ num, standing num ≠ 0 → seqnumOf num < packseq
  unsent : ∀ node ∈ nodes, node.ack = 0 →
    standing (UInt32.ofInt node.seqnum) = 0
  underway : ∀ node ∈ nodes, node.ack = 1 →
    standing (UInt32.ofInt node.seqnum) = 1
  behind : ∀ node ∈ nodes, node.ack = 1 →
    Followed (fun c => c = .cancel (UInt32.ofInt node.seqnum))
      (fun c => c.starts (UInt32.ofInt node.seqnum)) commands

namespace Covered

variable {nodes nodes' : List PackNode} {packseq packseq' : ℤ}
variable {commands : List Command} {standing standing' : UInt32 → ℕ}

theorem seqnumOf_eq (hcovered : Covered nodes packseq commands standing)
    {node : PackNode} (hnode : node ∈ nodes) :
    seqnumOf (UInt32.ofInt node.seqnum) = node.seqnum := by
  have hbounds := hcovered.bounds node hnode
  have hpackseq := hcovered.packseq_le
  exact seqnumOf_ofInt (by omega) (by omega)

/-- Only packets that are not acknowledged need anything. -/
theorem restrict (hcovered : Covered nodes packseq commands standing)
    (hbounds : ∀ node ∈ nodes', 1 ≤ node.seqnum ∧ node.seqnum < packseq)
    (hold : ∀ node ∈ nodes', node.ack = 0 ∨ node.ack = 1 → node ∈ nodes) :
    Covered nodes' packseq commands standing where
  packseq_pos := hcovered.packseq_pos
  packseq_le := hcovered.packseq_le
  bounds := hbounds
  single := hcovered.single
  below := hcovered.below
  unsent node hnode hack := hcovered.unsent node (hold node hnode (.inl hack)) hack
  underway node hnode hack :=
    hcovered.underway node (hold node hnode (.inr hack)) hack
  behind node hnode hack := hcovered.behind node (hold node hnode (.inr hack)) hack

/-- A packet that is newly listed has never been sent. -/
theorem list (hcovered : Covered nodes packseq commands standing)
    {new : List PackNode} (hpackseq : packseq ≤ packseq')
    (hpackseq' : packseq' ≤ 2147483647) (hack : ∀ node ∈ new, node.ack = 0)
    (hseq : ∀ node ∈ new, packseq ≤ node.seqnum ∧ node.seqnum < packseq') :
    Covered (nodes ++ new) packseq' commands standing := by
  have hpos := hcovered.packseq_pos
  refine ⟨by omega, hpackseq', ?_, hcovered.single, ?_, ?_, ?_, ?_⟩
  · intro node hnode
    rcases List.mem_append.1 hnode with hnode | hnode
    · have := hcovered.bounds node hnode
      omega
    · have := hseq node hnode
      omega
  · intro num hnum
    have := hcovered.below num hnum
    omega
  · intro node hnode hzero
    rcases List.mem_append.1 hnode with hnode | hnode
    · exact hcovered.unsent node hnode hzero
    · by_contra hstanding
      have hbelow := hcovered.below _ hstanding
      have hbounds := hseq node hnode
      rw [seqnumOf_ofInt (by omega) (by omega)] at hbelow
      omega
  · intro node hnode hone
    rcases List.mem_append.1 hnode with hnode | hnode
    · exact hcovered.underway node hnode hone
    · rw [hack node hnode] at hone
      cases hone
  · intro node hnode hone
    rcases List.mem_append.1 hnode with hnode | hnode
    · exact hcovered.behind node hnode hone
    · rw [hack node hnode] at hone
      cases hone

/-- A cancellation of no packet under way. -/
theorem cancel (hcovered : Covered nodes packseq commands standing) {num : ℤ}
    (hother : ∀ node ∈ nodes, node.ack = 1 →
      UInt32.ofInt node.seqnum ≠ UInt32.ofInt num) :
    Covered nodes packseq (commands ++ [.cancel (UInt32.ofInt num)])
      standing := by
  refine { hcovered with behind := fun node hnode hack => ?_ }
  refine (hcovered.behind node hnode hack).join fun h => ?_
  injection h with h
  exact hother node hnode hack h.symm

/-- A packet is sent, and its timer started. -/
theorem send {before after : List PackNode} {node : PackNode}
    (hcovered : Covered (before ++ node :: after) packseq commands standing)
    (hack : node.ack = 0)
    (hother : ∀ other ∈ before ++ after, other.seqnum ≠ node.seqnum) (time : ℚ)
    (hstanding : ∀ num, standing' num =
      standing num + if num = UInt32.ofInt node.seqnum then 1 else 0) :
    Covered (marked before node 1 after) packseq
      (commands ++ [.start time (UInt32.ofInt node.seqnum)]) standing' := by
  have hnode : node ∈ before ++ node :: after := by simp
  have hzero := hcovered.unsent node hnode hack
  have hmem : ∀ other ∈ marked before node 1 after,
      other = { node with ack := 1 } ∨ other ∈ before ++ node :: after ∧
        UInt32.ofInt other.seqnum ≠ UInt32.ofInt node.seqnum := by
    intro other hmarked
    simp only [marked, List.mem_append, List.mem_cons] at hmarked
    by_cases hself : other = { node with ack := 1 }
    · exact .inl hself
    · have hside : other ∈ before ++ after := by
        rw [List.mem_append]
        tauto
      have hlisted : other ∈ before ++ node :: after := by
        simp only [List.mem_append, List.mem_cons] at hside ⊢
        tauto
      refine .inr ⟨hlisted, fun heq => hother other hside ?_⟩
      rw [← hcovered.seqnumOf_eq hlisted, heq, hcovered.seqnumOf_eq hnode]
  refine ⟨hcovered.packseq_pos, hcovered.packseq_le, ?_, ?_, ?_, ?_, ?_, ?_⟩
  · intro other hmarked
    rcases hmem other hmarked with rfl | ⟨hlisted, -⟩
    · exact hcovered.bounds node hnode
    · exact hcovered.bounds other hlisted
  · intro num
    rw [hstanding]
    by_cases hnum : num = UInt32.ofInt node.seqnum
    · rw [if_pos hnum, hnum, hzero]
    · rw [if_neg hnum]
      exact hcovered.single num
  · intro num hne
    by_cases hnum : num = UInt32.ofInt node.seqnum
    · rw [hnum, hcovered.seqnumOf_eq hnode]
      exact (hcovered.bounds node hnode).2
    · rw [hstanding, if_neg hnum] at hne
      exact hcovered.below num hne
  · intro other hmarked hother
    rcases hmem other hmarked with rfl | ⟨hlisted, hne⟩
    · cases hother
    · rw [hstanding, if_neg hne]
      exact hcovered.unsent other hlisted hother
  · intro other hmarked hother
    rcases hmem other hmarked with rfl | ⟨hlisted, hne⟩
    · rw [hstanding, if_pos rfl, hzero]
    · rw [hstanding, if_neg hne]
      exact hcovered.underway other hlisted hother
  · intro other hmarked hother
    rcases hmem other hmarked with rfl | ⟨hlisted, -⟩
    · exact followed_join (by simp [Command.starts]) (by simp)
    · exact (hcovered.behind other hlisted hother).join (by simp)

/-- A notice is read, and its packet is to be sent again. -/
theorem expire (hcovered : Covered nodes packseq commands standing)
    {exp : UInt32}
    (hstanding : ∀ num, standing num =
      standing' num + if num = exp then 1 else 0) :
    Covered (nodes.map fun current =>
      if current.seqnum = seqnumOf exp then { current with ack := 0 }
      else current) packseq commands standing' := by
  have hzero : standing' exp = 0 := by
    have hone := hcovered.single exp
    rw [hstanding, if_pos rfl] at hone
    omega
  have hle : ∀ num, standing' num ≤ standing num := by
    intro num
    rw [hstanding]
    exact Nat.le_add_right _ _
  have hmem : ∀ other ∈ nodes.map (fun current =>
      if current.seqnum = seqnumOf exp then { current with ack := 0 }
      else current),
      ∃ node ∈ nodes, other.seqnum = node.seqnum ∧
        (other.ack = 0 ∧ UInt32.ofInt node.seqnum = exp ∨
          other = node ∧ UInt32.ofInt node.seqnum ≠ exp) := by
    intro other hmap
    rw [List.mem_map] at hmap
    obtain ⟨node, hnode, rfl⟩ := hmap
    refine ⟨node, hnode, ?_⟩
    by_cases hnum : node.seqnum = seqnumOf exp
    · rw [if_pos hnum]
      exact ⟨rfl, .inl ⟨rfl, by rw [hnum, ofInt_seqnumOf]⟩⟩
    · rw [if_neg hnum]
      refine ⟨rfl, .inr ⟨rfl, fun heq => hnum ?_⟩⟩
      rw [← heq, hcovered.seqnumOf_eq hnode]
  refine ⟨hcovered.packseq_pos, hcovered.packseq_le, ?_,
    fun num => (hle num).trans (hcovered.single num), ?_, ?_, ?_, ?_⟩
  · intro other hmap
    obtain ⟨node, hnode, hseqnum, -⟩ := hmem other hmap
    rw [hseqnum]
    exact hcovered.bounds node hnode
  · intro num hnum
    have := hle num
    exact hcovered.below num (by omega)
  · intro other hmap hack
    obtain ⟨node, hnode, hseqnum, ⟨-, hexp⟩ | ⟨rfl, -⟩⟩ := hmem other hmap
    · rw [hseqnum, hexp, hzero]
    · have := hcovered.unsent other hnode hack
      have := hle (UInt32.ofInt other.seqnum)
      omega
  · intro other hmap hack
    obtain ⟨node, hnode, -, ⟨hother, -⟩ | ⟨rfl, hne⟩⟩ := hmem other hmap
    · rw [hother] at hack
      cases hack
    · have hone := hcovered.underway other hnode hack
      rwa [hstanding, if_neg hne, add_zero] at hone
  · intro other hmap hack
    obtain ⟨node, hnode, -, ⟨hother, -⟩ | ⟨rfl, -⟩⟩ := hmem other hmap
    · rw [hother] at hack
      cases hack
    · exact hcovered.behind other hnode hack

/-- `timerprocess` reads a command.  Where that leaves less standing for a
number, the command was a cancellation and no start command was behind it. -/
theorem read {c : Command}
    (hcovered : Covered nodes packseq (c :: commands) standing)
    (hle : ∀ num, standing' num ≤ standing num)
    (hlost : ∀ num, standing' num ≠ standing num →
      c = .cancel num ∧ ∀ other ∈ commands, other.starts num = false) :
    Covered nodes packseq commands standing' := by
  refine ⟨hcovered.packseq_pos, hcovered.packseq_le, hcovered.bounds,
    fun num => (hle num).trans (hcovered.single num), ?_, ?_, ?_, ?_⟩
  · intro num hnum
    have := hle num
    exact hcovered.below num (by omega)
  · intro node hnode hack
    have hzero := hcovered.unsent node hnode hack
    have := hle (UInt32.ofInt node.seqnum)
    omega
  · intro node hnode hack
    by_contra hne
    have hone := hcovered.underway node hnode hack
    obtain ⟨hc, hnone⟩ := hlost (UInt32.ofInt node.seqnum) (by omega)
    obtain ⟨other, hother, hstarts⟩ := (hcovered.behind node hnode hack).1 hc
    rw [hnone other hother] at hstarts
    cases hstarts
  · intro node hnode hack
    exact (hcovered.behind node hnode hack).leave

end Covered

/-- A call that ends in `checkWindow`. -/
theorem Covered.rewind {mid s : CBuffer} {freed kept new : List PackNode}
    {commands : List Command} {standing : UInt32 → ℕ}
    (hcovered : Covered mid.nodes mid.packseq commands standing)
    (hrewind : Rewindowed mid freed kept new s) :
    Covered s.nodes s.packseq commands standing := by
  have hkept : Covered kept mid.packseq commands standing := by
    refine hcovered.restrict (fun node hnode => ?_) (fun node hnode _ => ?_)
    · exact hcovered.bounds node (by simp [hrewind.nodes_eq, hnode])
    · simp [hrewind.nodes_eq, hnode]
  rw [hrewind.nodes_eq']
  refine hkept.list ?_ (hrewind.packseq_le hcovered.packseq_le) hrewind.new_ack
    hrewind.new_tiles.seqnum_bounds
  rw [hrewind.new_tiles.seq_eq]
  omega

/-! ## The calls of tcpdc -/

/-- The state is in order, and every packet has what it needs. -/
structure Tracked (t : State) : Prop where
  window : Window t.cbuffer
  chain : ∃ cells, t.timers.Chain cells
  covered : Covered t.cbuffer.nodes t.cbuffer.packseq t.commands t.standing

theorem Tracked.addData {t t' : State} {chunk : List UInt8}
    (htracked : Tracked t) (hadd : t.addData chunk = some t') : Tracked t' := by
  rw [State.addData, Option.map_eq_some_iff] at hadd
  obtain ⟨⟨result, freed, s⟩, hadd, rfl⟩ := hadd
  obtain ⟨-, hadded, hwindow⟩ := addData_added htracked.window hadd
  refine ⟨hwindow, htracked.chain, ?_⟩
  have hcovered := htracked.covered
  cases hadded with
  | accepted mid s new hstored hrewind =>
      rw [← hstored.nodes_eq, ← hstored.packseq_eq] at hcovered
      exact hcovered.rewind hrewind
  | rejected mid s _ hmid hrewind =>
      have htouched := touched_spaceLeft t.cbuffer
      rw [← hmid] at htouched
      rw [← htouched.nodes_eq, ← htouched.packseq_eq] at hcovered
      exact hcovered.rewind hrewind

theorem Tracked.recvACK {t t' : State} {ack : UInt32} {stop : Timespec}
    (htracked : Tracked t) (hrecv : t.recvACK (seqnumOf ack) stop = some t') :
    Tracked t' := by
  rw [State.recvACK, Option.map_eq_some_iff] at hrecv
  obtain ⟨⟨result, freed, s⟩, hrecv, rfl⟩ := hrecv
  obtain ⟨hacked, hwindow⟩ := recvACK_acked htracked.window hrecv
  have hcovered := htracked.covered
  have hstanding : State.standing { t with
      cbuffer := s
      commands := t.commands ++ [.cancel (UInt32.ofInt (seqnumOf ack))] } =
      t.standing := by
    funext num
    simp [State.standing, Command.starts]
  refine ⟨hwindow, htracked.chain, ?_⟩
  rw [hstanding]
  have hnum : ∀ node ∈ t.cbuffer.nodes, node.seqnum ≠ seqnumOf ack →
      UInt32.ofInt node.seqnum ≠ UInt32.ofInt (seqnumOf ack) := by
    intro node hnode hne heq
    rw [ofInt_seqnumOf] at heq
    exact hne (by rw [← heq, hcovered.seqnumOf_eq hnode])
  cases hacked with
  | absent i s _ hnone hsame hnodes _ =>
      dsimp only
      rw [hnodes, hsame.packseq_eq]
      exact hcovered.cancel fun node hnode _ =>
        hnum node hnode (hnone node hnode)
  | listed i mid s before after node freed kept new _ hnodes hseqnum hsame hmid
      _ hrewind =>
      obtain ⟨hbefore, hafter⟩ := htracked.window.seqnum_ne hnodes
      have hnode : node ∈ t.cbuffer.nodes := by simp [hnodes]
      have hmem : ∀ other ∈ mid.nodes, other.seqnum = node.seqnum ∧
          other.ack = 2 ∨ other ∈ t.cbuffer.nodes ∧
            other.seqnum ≠ seqnumOf ack := by
        intro other hother
        rw [hmid, marked, List.mem_append, List.mem_cons] at hother
        rcases hother with hother | rfl | hother
        · exact .inr ⟨by simp [hnodes, hother], hseqnum ▸ hbefore other hother⟩
        · exact .inl ⟨rfl, rfl⟩
        · exact .inr ⟨by simp [hnodes, hother], hseqnum ▸ hafter other hother⟩
      have hmarked : Covered mid.nodes mid.packseq t.commands t.standing := by
        rw [hsame.packseq_eq]
        refine hcovered.restrict ?_ ?_
        · intro other hother
          rcases hmem other hother with ⟨heq, -⟩ | ⟨hlisted, -⟩
          · rw [heq]
            exact hcovered.bounds node hnode
          · exact hcovered.bounds other hlisted
        · intro other hother hack
          rcases hmem other hother with ⟨-, htwo⟩ | ⟨hlisted, -⟩
          · omega
          · exact hlisted
      refine Covered.rewind (hmarked.cancel fun other hother hack => ?_) hrewind
      rcases hmem other hother with ⟨-, htwo⟩ | ⟨hlisted, hne⟩
      · omega
      · exact hnum other hlisted hne

theorem Tracked.timerExpire {t : State} {exp : UInt32} {rest : List UInt32}
    (htracked : Tracked t) (hqueue : t.expirations = exp :: rest)
    (place : Place) :
    Tracked { t with
      cbuffer := t.cbuffer.timerExpire (seqnumOf exp)
      expirations := rest
      place := place } := by
  refine ⟨timerExpire_window htracked.window _, htracked.chain,
    htracked.covered.expire fun num => ?_⟩
  simp only [State.standing, hqueue, List.count_cons, beq_iff_eq]
  by_cases hnum : num = exp
  · rw [if_pos hnum, if_pos hnum.symm]
    rfl
  · rw [if_neg hnum, if_neg (Ne.symm hnum)]
    rfl

theorem Tracked.sendWindow {t : State} {clock : Timespec} {i : ℕ}
    {sents : List Sent} {s : CBuffer} (htracked : Tracked t)
    (hsend : sendAt (fun _ => clock) ([], t.cbuffer) i = some (sents, s))
    (place : Place) :
    Tracked { t with
      cbuffer := s
      commands := t.commands ++
        sents.map fun sent => .start 1 (UInt32.ofInt sent.bsn)
      place := place } := by
  have hsame : Tracked { t with place := place } :=
    ⟨htracked.window, htracked.chain, htracked.covered⟩
  rcases sendAt_transmits htracked.window hsend with
    ⟨rfl, rfl⟩ | ⟨sent, before, current, after, slot, rfl, htransmits⟩
  · simpa using hsame
  · have hcovered := htracked.covered
    have hzero : current.ack = 0 := by
      have hacks := htracked.window.acks current
        (by simp [htransmits.nodes_eq])
      have hnot := htransmits.not_sent
      omega
    have hne := htracked.window.seqnum_ne htransmits.nodes_eq
    rw [htransmits.nodes_eq] at hcovered
    refine ⟨htransmits.window htracked.window, htracked.chain, ?_⟩
    rw [htransmits.state_eq, htransmits.sent_eq]
    refine hcovered.send hzero ?_ 1 fun num => ?_
    · intro other hother
      rcases List.mem_append.1 hother with hother | hother
      · exact hne.1 other hother
      · exact hne.2 other hother
    · rw [State.standing, State.standing]
      simp only [List.nil_append, List.map_singleton, List.countP_append,
        List.countP_singleton, Command.starts, decide_eq_true_eq]
      by_cases hnum : num = UInt32.ofInt current.seqnum
      · rw [if_pos hnum, if_pos hnum.symm]
        omega
      · rw [if_neg hnum, if_neg (Ne.symm hnum)]
        rfl

/-! ## The steps of timerprocess -/

theorem standing_eq {t : State} {cells : List ℕ}
    (hchain : t.timers.Chain cells) (num : UInt32) :
    t.standing num = t.commands.countP (Command.starts num) +
      (t.timers.entries cells).countP (fun entry => entry.2 = num) +
      t.expirations.count num := by
  rw [State.standing, hchain.cells_eq, Timers.entries, List.countP_map]
  rfl

theorem Tracked.insertValue {t : State} {s : Timers} {time : ℚ}
    {byteSeqNum : UInt32} {rest : List Command} (htracked : Tracked t)
    (hqueue : t.commands = .start time byteSeqNum :: rest)
    (hinsert : t.timers.insertValue time 0 byteSeqNum = some s) :
    Tracked { t with timers := s, commands := rest } := by
  obtain ⟨cells, hchain⟩ := htracked.chain
  obtain ⟨s', before, after, delta, hinsert', rfl, hinserted, -⟩ :=
    Timers.insertValue_spec hchain time 0 byteSeqNum
  rw [hinsert] at hinsert'
  cases hinsert'
  have hsame : State.standing { t with timers := s, commands := rest } =
      t.standing := by
    funext num
    rw [standing_eq hchain, @standing_eq { t with timers := s, commands := rest }
      _ hinserted.chain]
    dsimp only
    rw [(hinserted.entries hchain).countP_eq, hqueue, List.countP_cons,
      List.countP_cons, Command.starts]
    simp only [decide_eq_true_eq]
    omega
  have hcovered := htracked.covered
  rw [hqueue] at hcovered
  refine ⟨htracked.window, ⟨_, hinserted.chain⟩, hcovered.read ?_ ?_⟩
  · intro num
    rw [hsame]
  · intro num hne
    exact absurd (congrFun hsame num) hne

theorem Tracked.removeValue {t : State} {s : Timers} {result : ℤ}
    {freed : Option ℕ} {byteSeqNum : UInt32} {rest : List Command}
    (htracked : Tracked t) (hqueue : t.commands = .cancel byteSeqNum :: rest)
    (hremove : t.timers.removeValue byteSeqNum = some (result, freed, s)) :
    Tracked { t with timers := s, commands := rest } := by
  obtain ⟨cells, hchain⟩ := htracked.chain
  have hcovered := htracked.covered
  rw [hqueue] at hcovered
  rcases Timers.removeValue_spec hchain hremove with
    ⟨-, rfl, -⟩ | ⟨before, cell, after, rfl, -, hnum, -, hremoved⟩
  · have hsame : State.standing { t with commands := rest } = t.standing := by
      funext num
      simp [State.standing, hqueue, Command.starts]
    refine ⟨htracked.window, ⟨cells, hchain⟩, hcovered.read ?_ ?_⟩
    · intro num
      rw [hsame]
    · intro num hne
      exact absurd (congrFun hsame num) hne
  · have hstanding : ∀ num, t.standing num =
        State.standing { t with timers := s, commands := rest } num +
          if byteSeqNum = num then 1 else 0 := by
      intro num
      rw [standing_eq hchain, @standing_eq { t with timers := s, commands := rest }
        _ hremoved.chain]
      dsimp only
      rw [hremoved.entries.countP_eq, hqueue, List.countP_cons,
        List.countP_cons, Command.starts, hnum]
      simp only [decide_eq_true_eq, Bool.false_eq_true, if_false]
      omega
    refine ⟨htracked.window, ⟨_, hremoved.chain⟩, hcovered.read ?_ ?_⟩
    · intro num
      rw [hstanding]
      exact Nat.le_add_right _ _
    · intro num hne
      have hself : byteSeqNum = num := by
        by_contra hother
        rw [hstanding, if_neg hother] at hne
        exact hne rfl
      subst hself
      refine ⟨rfl, fun other hother => ?_⟩
      have hsingle := hcovered.single byteSeqNum
      rw [hstanding, if_pos rfl] at hsingle
      have hnone : rest.countP (Command.starts byteSeqNum) = 0 := by
        simp only [State.standing] at hsingle
        omega
      simpa using List.countP_eq_zero.1 hnone other hother

theorem Tracked.decrement {t : State} {s : Timers} {now : ℚ}
    {notices : List Notice} (htracked : Tracked t)
    (hdecrement : t.timers.decrement t.prev now = some (notices, s)) :
    Tracked { t with
      timers := s
      prev := now
      expirations := t.expirations ++ notices.map Notice.byteSeqNum } := by
  obtain ⟨cells, hchain⟩ := htracked.chain
  -- every expiration turns a timer into a notice with its number
  have hrule := Timers.decrement_rule
    (I := fun sent s cells' => ∀ num : UInt32,
      (s.entries cells').countP (fun entry => entry.2 = num) +
        (sent.map Notice.byteSeqNum).count num =
      (t.timers.entries cells).countP fun entry => entry.2 = num)
    hchain ?_ ?_ hdecrement
  · obtain ⟨cells', hchain', hcount⟩ := hrule
    have hsame : State.standing { t with
        timers := s
        prev := now
        expirations := t.expirations ++ notices.map Notice.byteSeqNum } =
        t.standing := by
      funext num
      rw [standing_eq hchain, standing_eq hchain']
      dsimp only
      rw [List.count_append, ← hcount num]
      omega
    refine ⟨htracked.window, ⟨cells', hchain'⟩, ?_⟩
    rw [hsame]
    exact htracked.covered
  · intro s _ _ hnum _ num
    rw [Timers.entries, Timers.entries, hnum]
    rfl
  · intro sent s cell rest s' _ hcount hexpired num
    rw [← hcount num, hexpired.entries, Timers.entries, Timers.entries,
      List.map_cons, List.countP_cons, List.map_append, List.count_append]
    simp only [List.map_singleton, List.count_singleton, Timers.notice,
      decide_eq_true_eq, beq_iff_eq]
    omega

/-! ## All runs -/

theorem tracked_start (prev : ℚ) : Tracked (State.start prev) := by
  have hnone : ∀ num, (State.start prev).standing num = 0 := fun _ => rfl
  refine ⟨window_start, ⟨[], Timers.chain_start⟩, le_refl (1 : ℤ), ?_, ?_, ?_,
    ?_, ?_, ?_, ?_⟩
  · change (1 : ℤ) ≤ 2147483647
    decide
  · exact fun node hnode => absurd hnode List.not_mem_nil
  · intro num
    rw [hnone]
    exact Nat.zero_le 1
  · exact fun num hnum => absurd (hnone num) hnum
  · exact fun node hnode => absurd hnode List.not_mem_nil
  · exact fun node hnode => absurd hnode List.not_mem_nil
  · exact fun node hnode => absurd hnode List.not_mem_nil

theorem Tracked.move {t : State} (htracked : Tracked t) (place : Place) :
    Tracked { t with place := place } :=
  ⟨htracked.window, htracked.chain, htracked.covered⟩

theorem Tracked.command {t t' : State} (htracked : Tracked t)
    (hstep : t.step .command = some t') : Tracked t' := by
  rw [State.step] at hstep
  cases hqueue : t.commands with
  | nil =>
      rw [hqueue] at hstep
      cases hstep
  | cons c rest =>
      rw [hqueue] at hstep
      cases c with
      | start time byteSeqNum =>
          rw [Option.map_eq_some_iff] at hstep
          obtain ⟨s, hinsert, rfl⟩ := hstep
          exact htracked.insertValue hqueue hinsert
      | cancel byteSeqNum =>
          rw [Option.map_eq_some_iff] at hstep
          obtain ⟨⟨result, freed, s⟩, hremove, rfl⟩ := hstep
          exact htracked.removeValue hqueue hremove

theorem Tracked.step {t t' : State} {e : Event} (htracked : Tracked t)
    (hstep : t.step e = some t') : Tracked t' := by
  cases e with
  | retry temp =>
      rw [State.step, Option.ite_none_right_eq_some, Option.map_eq_some_iff]
        at hstep
      obtain ⟨-, mid, hadd, rfl⟩ := hstep
      exact (htracked.addData hadd).move _
  | host chunk =>
      rw [State.step, Option.ite_none_right_eq_some, Option.map_eq_some_iff]
        at hstep
      obtain ⟨-, mid, hadd, rfl⟩ := hstep
      exact (htracked.addData hadd).move _
  | recvACK ack stop =>
      rw [State.step, Option.ite_none_right_eq_some] at hstep
      exact htracked.recvACK hstep.2
  | timerExpire =>
      rw [State.step] at hstep
      cases hqueue : t.expirations with
      | nil =>
          rw [hqueue] at hstep
          cases hstep
      | cons exp rest =>
          simp only [hqueue, Option.ite_none_right_eq_some,
            Option.some.injEq] at hstep
          obtain ⟨-, rfl⟩ := hstep
          exact htracked.timerExpire hqueue _
  | proceed =>
      rw [State.step, Option.ite_none_left_eq_some, Option.map_eq_some_iff]
        at hstep
      obtain ⟨-, place, -, rfl⟩ := hstep
      exact htracked.move place
  | sendWindow clock =>
      rw [State.step] at hstep
      split at hstep
      · split at hstep
        · rw [Option.map_eq_some_iff] at hstep
          obtain ⟨⟨sents, s⟩, hsend, rfl⟩ := hstep
          exact htracked.sendWindow hsend _
        · cases hstep
          exact htracked.move _
      · cases hstep
  | command => exact htracked.command hstep
  | decrement now =>
      rw [State.step, Option.map_eq_some_iff] at hstep
      obtain ⟨⟨notices, s⟩, hdecrement, rfl⟩ := hstep
      exact htracked.decrement hdecrement

theorem tracked_reachable {t : State} (hreach : daemons.Reachable t) :
    Tracked t := by
  refine hreach.invariant ?_ ?_
  · rintro t ⟨prev, rfl⟩
    exact tracked_start prev
  · intro t e t' htracked hstep
    exact htracked.step hstep

/-- In any state of the two daemons, between rounds of `receiveAndSend` and
within them, one thing stands for each packet under way: a start command, a
timer or a notice.  No number has more than one. -/
theorem underway_standing (t : State) (hreach : daemons.Reachable t) :
    (∀ node ∈ t.cbuffer.nodes, node.ack = 1 →
      t.standing (UInt32.ofInt node.seqnum) = 1) ∧
    ∀ num, t.standing num ≤ 1 := by
  have hcovered := (tracked_reachable hreach).covered
  exact ⟨hcovered.underway, hcovered.single⟩

/-- A packet is sent, its timer is started and runs out: the notice is what
stands for it. -/
theorem underway_standing_expired :
    ∃ t, daemons.Reachable t ∧ t.place = .round ∧
      t.cbuffer.nodes.map PackNode.ack = [1] ∧ t.expirations = [1] ∧
      (∀ node ∈ t.cbuffer.nodes, node.ack = 1 →
        t.standing (UInt32.ofInt node.seqnum) = 1) ∧
      ∀ num, t.standing num ≤ 1 := by
  have hadd : State.addData { State.start 0 with place := .host } [7] =
      some { State.start 0 with
        cbuffer := oneByte.cbuffer
        bread := 1
        place := .host } := by
    change Option.map _ (CBuffer.start.addData [7] ([7] : List UInt8).length) = _
    rw [addData_oneByte]
    rfl
  have hsend : sendAt (fun _ => ⟨0, 0⟩) ([], oneByte.cbuffer) 0 =
      some ([{ bsn := 1, datagram := datagram 1 [7] }],
        (oneByteSent { bsn := 1, on := 1, timestart := ⟨0, 0⟩ } 1 []).cbuffer) := by
    have hread : Memory.read (Memory.write (fun _ => 0) 0 [7]) 0 1 =
        ([7] : List UInt8) := by decide
    simp [sendAt, sendNode, requestSize, requestData, packetBytes,
      Memory.memcpyOut, hread, oneByteSent, oneByte, CBuffer.start,
      List.findIdx?_cons]
  have hhost : daemons.Reachable _ :=
    .step (l := .proceed) (.initial ⟨0, rfl⟩) rfl
  have hadded : daemons.Reachable _ :=
    hhost.step (l := .host [7]) (by
      change Option.map _ (State.addData _ [7]) = _
      rw [hadd]
      rfl)
  have hremote : daemons.Reachable _ := hadded.step (l := .proceed) rfl
  have htimer : daemons.Reachable { State.start 0 with
      cbuffer := oneByte.cbuffer
      bread := 1
      place := .window 0 } := hremote.step (l := .proceed) rfl
  have hsent : daemons.Reachable _ :=
    htimer.step (l := .sendWindow ⟨0, 0⟩) (by
      change State.step _ _ = _
      simp only [State.step]
      rw [if_pos (by decide), hsend]
      rfl)
  have hround : daemons.Reachable _ :=
    hsent.step (l := .sendWindow ⟨0, 0⟩) (by
      change State.step _ _ = _
      simp only [State.step]
      rw [if_neg (by decide)])
  have hstarted : daemons.Reachable _ := hround.step (l := .command) rfl
  have hexpired : daemons.Reachable _ :=
    hstarted.step (l := .decrement 1) (by
      change Option.map _ (Timers.decrement _ _ _) = _
      simp [State.start, Timers.start, Timers.setNode, Timers.setDtime,
        Timers.decrement, Timers.expireHead, Timers.removeValue, Timers.find,
        Timers.unlinkNode]
      rfl)
  exact ⟨_, hexpired, rfl, rfl, rfl, underway_standing _ hexpired⟩

end UdpTransfer.Daemons
