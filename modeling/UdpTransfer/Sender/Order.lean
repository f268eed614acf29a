import UdpTransfer.Sender.Correspondence

/-!
# The order of acknowledgements

A number of packets under way are acknowledged one after the other.  Whatever
the order, what is left is the original list with all of them marked, less the
packets in front that are acknowledged, and behind it packets that are new.  The
new packets can be cut differently, but cover the same bytes.
-/

namespace UdpTransfer.Sender

open UdpTransfer.Memory
open UdpTransfer.Runs
open UdpTransfer.Wire
open CBuffer

/-! ## Marking a set of packets -/

/-- The list with these packets marked. -/
def acknowledged (nums : List ℤ) (nodes : List PackNode) : List PackNode :=
  nodes.map fun node =>
    if node.seqnum ∈ nums then { node with ack := 2 } else node

theorem acknowledged_append (nums : List ℤ) (left right : List PackNode) :
    acknowledged nums (left ++ right) =
      acknowledged nums left ++ acknowledged nums right :=
  List.map_append

theorem acknowledged_concat (nums : List ℤ) (num : ℤ) (nodes : List PackNode) :
    acknowledged (nums ++ [num]) nodes =
      acknowledged [num] (acknowledged nums nodes) := by
  rw [acknowledged, acknowledged, acknowledged, List.map_map]
  apply List.map_congr_left
  intro node _
  simp only [Function.comp_apply, List.mem_append, List.mem_singleton]
  by_cases hmem : node.seqnum ∈ nums
  · simp [hmem]
  · simp [hmem]

theorem acknowledged_eq_self {nums : List ℤ} {nodes : List PackNode}
    (hsame : ∀ node ∈ nodes, node.seqnum ∈ nums → node.ack = 2) :
    acknowledged nums nodes = nodes := by
  calc acknowledged nums nodes = nodes.map id := by
        apply List.map_congr_left
        intro node hnode
        split
        · rename_i hmem
          rw [← hsame node hnode hmem]
          rfl
        · rfl
    _ = nodes := List.map_id nodes

theorem shape_acknowledged (nums : List ℤ) (nodes : List PackNode) :
    shape (acknowledged nums nodes) = shape nodes := by
  simp only [acknowledged, shape, List.map_map]
  apply List.map_congr_left
  intro node _
  simp only [Function.comp_apply]
  split <;> rfl

theorem marked_eq_acknowledged {before after : List PackNode} {node : PackNode}
    (hbefore : ∀ other ∈ before, other.seqnum ≠ node.seqnum)
    (hafter : ∀ other ∈ after, other.seqnum ≠ node.seqnum) :
    marked before node 2 after =
      acknowledged [node.seqnum] (before ++ node :: after) := by
  have hleft : acknowledged [node.seqnum] before = before :=
    acknowledged_eq_self fun other hother hmem =>
      absurd (List.mem_singleton.1 hmem) (hbefore other hother)
  have hright : acknowledged [node.seqnum] after = after :=
    acknowledged_eq_self fun other hother hmem =>
      absurd (List.mem_singleton.1 hmem) (hafter other hother)
  have hnode : acknowledged [node.seqnum] (node :: after) =
      { node with ack := 2 } :: acknowledged [node.seqnum] after := by
    simp [acknowledged]
  rw [acknowledged_append, hnode, hleft, hright, marked]

section New

variable {nodes new : List PackNode} (hnew : ∀ node ∈ new, node.ack = 0)

include hnew

theorem takeWhile_acked_append :
    (nodes ++ new).takeWhile acked = nodes.takeWhile acked := by
  induction nodes with
  | nil =>
      cases new with
      | nil => rfl
      | cons node new => simp [acked, hnew node List.mem_cons_self]
  | cons node nodes ih =>
      rw [List.cons_append, List.takeWhile_cons, List.takeWhile_cons, ih]

theorem dropWhile_acked_append :
    (nodes ++ new).dropWhile acked = nodes.dropWhile acked ++ new := by
  induction nodes with
  | nil =>
      cases new with
      | nil => rfl
      | cons node new => simp [acked, hnew node List.mem_cons_self]
  | cons node nodes ih =>
      rw [List.cons_append, List.dropWhile_cons, List.dropWhile_cons, ih]
      split <;> rfl

end New

/-! ## What a set of acknowledgements leads to -/

/-- The bytes that these acknowledgements set free. -/
def released (s : CBuffer) (nums : List ℤ) : ℤ :=
  total ((acknowledged nums s.nodes).takeWhile acked)

/-- The buffer after these packets have been acknowledged, in any order. -/
structure Settled (s : CBuffer) (nums : List ℤ) (s' : CBuffer) : Prop where
  nodes_eq : ∃ new, s'.nodes =
    (acknowledged nums s.nodes).dropWhile acked ++ new ∧
    ∀ node ∈ new, node.ack = 0 ∧ s.packseq ≤ node.seqnum
  packseq_le : s.packseq ≤ s'.packseq
  dstart_eq : s'.dstart = (s.dstart + released s nums) % 64000
  dend_eq : s'.dend = s.dend
  used_eq : used s' =
    if 0 < released s nums ∧ released s nums = used s ∧ s.dend = 64000 then
      64000
    else
      used s - released s nums
  packtimes_eq : s'.packtimes = s.packtimes.map fun slot =>
    if slot.bsn ∈ nums then { slot with on := 0 } else slot

/-- Only which packets are acknowledged matters. -/
theorem Settled.congr {s s' : CBuffer} {nums nums' : List ℤ}
    (hsettled : Settled s nums s') (hmem : ∀ num, num ∈ nums' ↔ num ∈ nums) :
    Settled s nums' s' := by
  have hmarks : acknowledged nums' s.nodes = acknowledged nums s.nodes := by
    simp only [acknowledged, hmem]
  have hreleased : released s nums' = released s nums := by
    rw [released, released, hmarks]
  refine
    { nodes_eq := by rw [hmarks]; exact hsettled.nodes_eq
      packseq_le := hsettled.packseq_le
      dstart_eq := by rw [hreleased]; exact hsettled.dstart_eq
      dend_eq := hsettled.dend_eq
      used_eq := by rw [hreleased]; exact hsettled.used_eq
      packtimes_eq := by simp only [hmem]; exact hsettled.packtimes_eq }

theorem settled_nil {s : CBuffer} (hs : Window s) : Settled s [] s := by
  have hmarks : acknowledged [] s.nodes = s.nodes :=
    acknowledged_eq_self (by simp)
  have hfront : s.nodes.takeWhile acked = [] ∧
      s.nodes.dropWhile acked = s.nodes := by
    have hhead := hs.head_ack
    cases hnodes : s.nodes with
    | nil => simp
    | cons node nodes =>
        have hnot : acked node = false := by
          simpa [acked] using hhead node (by simp [hnodes])
        simp [hnot]
  have hreleased : released s [] = 0 := by
    rw [released, hmarks, hfront.1, total_nil]
  refine
    { nodes_eq := ⟨[], ?_, by simp⟩
      packseq_le := le_rfl
      dstart_eq := ?_
      dend_eq := rfl
      used_eq := ?_
      packtimes_eq := ?_ }
  · rw [hmarks, hfront.2, List.append_nil]
  · rw [hreleased, add_zero, Int.emod_eq_of_lt hs.dstart_nonneg hs.dstart_lt]
  · rw [hreleased, sub_zero, if_neg (by omega)]
  · simp

/-- A packet under way that is not acknowledged yet is still listed. -/
theorem mem_dropWhile_acknowledged {nums : List ℤ} {nodes : List PackNode}
    {node : PackNode} (hnode : node ∈ nodes) (hack : node.ack = 1)
    (hnot : node.seqnum ∉ nums) :
    node ∈ (acknowledged nums nodes).dropWhile acked := by
  have hmem : node ∈ acknowledged nums nodes :=
    List.mem_map.2 ⟨node, hnode, if_neg hnot⟩
  rw [← List.takeWhile_append_dropWhile (p := acked)
    (l := acknowledged nums nodes), List.mem_append] at hmem
  rcases hmem with hmem | hmem
  · have hacked := List.mem_takeWhile_imp hmem
    rw [acked, hack] at hacked
    cases hacked
  · exact hmem

theorem Settled.mem {s s' : CBuffer} {nums : List ℤ}
    (hsettled : Settled s nums s') {node : PackNode} (hnode : node ∈ s.nodes)
    (hack : node.ack = 1) (hnot : node.seqnum ∉ nums) : node ∈ s'.nodes := by
  obtain ⟨new, hnodes, -⟩ := hsettled.nodes_eq
  rw [hnodes]
  exact List.mem_append_left _ (mem_dropWhile_acknowledged hnode hack hnot)

/-- What one more acknowledgement does to the list. -/
theorem acknowledged_concat_split (nums : List ℤ) (num : ℤ)
    (nodes : List PackNode) :
    (acknowledged (nums ++ [num]) nodes).takeWhile acked =
        (acknowledged nums nodes).takeWhile acked ++
          (acknowledged [num] ((acknowledged nums nodes).dropWhile
            acked)).takeWhile acked ∧
      (acknowledged (nums ++ [num]) nodes).dropWhile acked =
        (acknowledged [num] ((acknowledged nums nodes).dropWhile
          acked)).dropWhile acked := by
  have hfront : ∀ node ∈ (acknowledged nums nodes).takeWhile acked,
      acked node = true := fun node hnode => List.mem_takeWhile_imp hnode
  have hsplit : acknowledged (nums ++ [num]) nodes =
      (acknowledged nums nodes).takeWhile acked ++
        acknowledged [num] ((acknowledged nums nodes).dropWhile acked) := by
    have hsame : acknowledged [num] ((acknowledged nums nodes).takeWhile acked) =
        (acknowledged nums nodes).takeWhile acked :=
      acknowledged_eq_self fun node hnode _ => by
        simpa [acked] using hfront node hnode
    rw [acknowledged_concat]
    nth_rewrite 1 [← List.takeWhile_append_dropWhile (p := acked)
      (l := acknowledged nums nodes)]
    rw [acknowledged_append, hsame]
  rw [hsplit]
  exact ⟨List.takeWhile_append_of_pos hfront,
    List.dropWhile_append_of_pos hfront⟩

/-- The buffer just before it is rewound for one more packet. -/
theorem Settled.marked {s s₁ mid : CBuffer} {nums : List ℤ}
    {before after : List PackNode} {node : PackNode} {new : List PackNode}
    (hs : Window s) (hs₁ : Window s₁)
    (hnodes : s₁.nodes = before ++ node :: after)
    (hnodes' : s₁.nodes = (acknowledged nums s.nodes).dropWhile acked ++ new)
    (hnew : ∀ other ∈ new, other.ack = 0 ∧ s.packseq ≤ other.seqnum)
    (hmid : mid.nodes = marked before node 2 after)
    (hlisted : ∃ other ∈ s.nodes, other.seqnum = node.seqnum) :
    mid.nodes = acknowledged [node.seqnum]
      ((acknowledged nums s.nodes).dropWhile acked) ++ new := by
  obtain ⟨first, htiles⟩ := hs.tiles
  obtain ⟨other, hother, hnum⟩ := hlisted
  have hbound := htiles.seqnum_bounds other hother
  have hsame : acknowledged [node.seqnum] new = new :=
    acknowledged_eq_self fun later hlater hmem => by
      have hseqnum := List.mem_singleton.1 hmem
      have hlow := (hnew later hlater).2
      omega
  obtain ⟨hbefore, hafter⟩ := hs₁.seqnum_ne hnodes
  rw [hmid, marked_eq_acknowledged hbefore hafter, ← hnodes, hnodes',
    acknowledged_append, hsame]

/-- As long as a packet of the original list is left, not all stored bytes have
been set free. -/
theorem released_bounds {s : CBuffer} (hs : Window s) {nums : List ℤ}
    (hkept : (acknowledged nums s.nodes).dropWhile acked ≠ []) :
    0 ≤ released s nums ∧ released s nums < used s := by
  obtain ⟨first, htiles⟩ := hs.tiles
  rw [← tiles_congr (shape_acknowledged nums s.nodes)] at htiles
  have hpos := total_pos hkept fun node hnode =>
    htiles.size_bounds node (List.dropWhile_subset _ hnode)
  have hnonneg : 0 ≤ released s nums := total_nonneg fun node hnode =>
    htiles.size_bounds node (List.takeWhile_subset _ hnode)
  have htotal := hs.total_eq
  rw [← total_congr (shape_acknowledged nums s.nodes),
    ← List.takeWhile_append_dropWhile (p := acked)
      (l := acknowledged nums s.nodes), total_append, ← released] at htotal
  omega

/-- One more packet is acknowledged. -/
theorem Settled.step {s s₁ s₂ : CBuffer} {nums : List ℤ} {num result : ℤ}
    {freed : List PackNode} {writes : List (ℕ × ℤ)} (hs : Window s)
    (hs₁ : Window s₁) (hsettled : Settled s nums s₁)
    (hmatched : Matched s₁.packtimes writes (Underway s₁))
    (hlisted : ∃ node ∈ s.nodes, node.seqnum = num ∧ node.ack = 1)
    (hnot : num ∉ nums) (hacked : Acked s₁ num result freed s₂) :
    Settled s (nums ++ [num]) s₂ := by
  obtain ⟨listed, hmem, rfl, hunder⟩ := hlisted
  obtain ⟨new, hnodes, hnew⟩ := hsettled.nodes_eq
  have hkept := mem_dropWhile_acknowledged hmem hunder hnot
  cases hacked with
  | absent i s₂ _ hnone _ _ _ =>
      exact absurd rfl (hnone listed (hsettled.mem hmem hunder hnot))
  | listed i mid s₂ before after node freed kept new' hfind hsplit hnum hsame
      hmid hpacktimes hrewind =>
      have hshape : shape mid.nodes = shape s₁.nodes := by
        rw [hmid, hsplit, shape_marked]
      obtain ⟨⟨first, htiles⟩, htotal⟩ := hs₁.tiles_marked hsame hshape
      have hin := hsame.inBuffer hs₁.toInBuffer
      have hmidNodes := Settled.marked hs hs₁ hsplit hnodes hnew hmid
        ⟨listed, hmem, hnum.symm⟩
      rw [hnum] at hmidNodes
      obtain ⟨htake, hdrop⟩ :=
        acknowledged_concat_split nums listed.seqnum s.nodes
      obtain ⟨hfreed, hkept'⟩ := hrewind.freed_eq
      rw [hmidNodes, takeWhile_acked_append fun other hother =>
        (hnew other hother).1] at hfreed
      rw [hmidNodes, dropWhile_acked_append fun other hother =>
        (hnew other hother).1, ← hdrop] at hkept'
      have hreleased : released s (nums ++ [listed.seqnum]) =
          released s nums + total freed := by
        rw [released, htake, total_append, ← hfreed, released]
      have hne : mid.nodes ≠ [] := by simp [hmid, Sender.marked]
      have hused := hrewind.used_freed hin htiles.size_bounds htotal hne
      have hdstart := hsettled.dstart_eq
      have hpackseq := hsettled.packseq_le
      refine
        { nodes_eq := ⟨new ++ new', ?_, ?_⟩
          packseq_le := ?_
          dstart_eq := ?_
          dend_eq := ?_
          used_eq := ?_
          packtimes_eq := ?_ }
      · rw [hrewind.nodes_eq', hkept', List.append_assoc]
      · intro other hother
        rcases List.mem_append.1 hother with hother | hother
        · exact hnew other hother
        · have hlow := (hrewind.new_tiles.seqnum_bounds other hother).1
          rw [hsame.packseq_eq] at hlow
          exact ⟨hrewind.new_ack other hother, hpackseq.trans hlow⟩
      · have hseq := hrewind.new_tiles.seq_eq
        rw [hsame.packseq_eq] at hseq
        omega
      · rw [hrewind.dstart_eq, hsame.dstart_eq, hdstart, hreleased]
        omega
      · rw [hrewind.dend_eq, hsame.dend_eq, hsettled.dend_eq]
      · have hbounds := released_bounds hs (List.ne_nil_of_mem hkept)
        have hcount := hsettled.used_eq
        rw [if_neg (by omega)] at hcount
        rw [hused, hsame.used_eq, hsame.dend_eq, hsettled.dend_eq, hcount,
          hreleased]
        apply ite_congr
        · apply propext
          constructor
          · rintro ⟨hall, hdend⟩
            exact ⟨by omega, by omega, hdend⟩
          · rintro ⟨-, hall, hdend⟩
            exact ⟨by omega, hdend⟩
        · exact fun _ => rfl
        · intro _
          omega
      · rw [hrewind.packtimes_eq, hpacktimes, hmatched.modify_eq_map hfind,
          hsettled.packtimes_eq, List.map_map]
        apply List.map_congr_left
        intro slot _
        simp only [Function.comp_apply, List.mem_append, List.mem_singleton]
        by_cases hbsn : slot.bsn ∈ nums
        · simp [hbsn]
        · simp [hbsn]

/-! ## Runs of acknowledgements -/

/-- One call of `recvACK` for each, in this order. -/
def ackCalls (acks : List (ℤ × Timespec)) : List Call :=
  acks.map fun ack => .recvACK ack.1 ack.2

theorem settled_run {t : Session} (hreach : sender.Reachable t)
    {acks : List (ℤ × Timespec)} (hnodup : (acks.map Prod.fst).Nodup)
    (hlisted : ∀ num ∈ acks.map Prod.fst,
      ∃ node ∈ t.cbuffer.nodes, node.seqnum = num ∧ node.ack = 1)
    {t' : Session} (hrun : t.run (ackCalls acks) = some t') :
    sender.Reachable t' ∧
      Settled t.cbuffer (acks.map Prod.fst) t'.cbuffer := by
  induction acks using List.reverseRecOn generalizing t' with
  | nil =>
      cases hrun
      exact ⟨hreach, settled_nil (window_reachable hreach)⟩
  | append_singleton acks ack ih =>
      rw [List.map_append, List.map_singleton] at hnodup hlisted ⊢
      rw [ackCalls, List.map_append, List.map_singleton] at hrun
      obtain ⟨t₁, hfront, hcall⟩ := run_concat.1 hrun
      obtain ⟨hreach₁, hsettled⟩ := ih (List.nodup_append.1 hnodup).1
        (fun num hnum => hlisted num (List.mem_append_left _ hnum)) hfront
      refine ⟨hreach₁.step hcall, ?_⟩
      obtain ⟨h, hrecord, hsession⟩ := exists_history hreach₁
      have hmatched := matched_reachable hrecord
      rw [hsession] at hmatched
      have hs₁ := window_reachable hreach₁
      rw [Session.call, Option.map_eq_some_iff] at hcall
      obtain ⟨⟨result, freed, s⟩, hrecv, rfl⟩ := hcall
      exact hsettled.step (window_reachable hreach) hs₁ hmatched
        (hlisted ack.1 (by simp)) (by
          intro hmem
          exact (List.nodup_append.1 hnodup).2.2 _ hmem _
            (List.mem_singleton_self _) rfl)
        (recvACK_acked hs₁ hrecv).1

/-! ## The calls return -/

theorem length_le_total {nodes : List PackNode}
    (hsizes : ∀ node ∈ nodes, 1 ≤ node.size ∧ node.size ≤ 1000) :
    (nodes.length : ℤ) ≤ total nodes := by
  induction nodes with
  | nil => simp
  | cons node nodes ih =>
      rw [List.forall_mem_cons] at hsizes
      have hrest := ih hsizes.2
      rw [total_cons, List.length_cons]
      push_cast
      omega

/-- A call of `recvACK` lists at most 20000 packets. -/
theorem Acked.packseq_le {s s' : CBuffer} {num result : ℤ}
    {freed : List PackNode} (hacked : Acked s num result freed s')
    (hs : Window s) : s'.packseq ≤ s.packseq + 20000 := by
  cases hacked with
  | absent i s' _ _ hsame _ _ =>
      rw [hsame.packseq_eq]
      omega
  | listed i mid s' before after node freed kept new _ hnodes _ hsame hmid _
      hrewind =>
      have hshape : shape mid.nodes = shape s.nodes := by
        rw [hmid, hnodes, shape_marked]
      obtain ⟨⟨first, htiles⟩, -⟩ := hs.tiles_marked hsame hshape
      have hkept : 0 ≤ total kept := total_nonneg fun node hnode =>
        htiles.size_bounds node (by simp [hrewind.nodes_eq, hnode])
      have hnew := length_le_total hrewind.new_tiles.size_bounds
      have hseq := hrewind.new_tiles.seq_eq
      have htotal := hrewind.total_eq
      rw [hrewind.nodes_eq', total_append] at htotal
      rw [hsame.packseq_eq] at hseq
      omega

/-- A packet under way can be acknowledged. -/
theorem Underway.recvACK_isSome {t : Session} {num : ℤ}
    (hunder : Underway t.cbuffer num) (hreach : sender.Reachable t)
    (stop : Timespec) (hfit : t.cbuffer.packseq + 20000 ≤ 2147483647) :
    ∃ t', t.call (.recvACK num stop) = some t' ∧
      t'.cbuffer.packseq ≤ t.cbuffer.packseq + 20000 := by
  obtain ⟨h, hrecord, rfl⟩ := exists_history hreach
  obtain ⟨node, hnode, hack, rfl⟩ := hunder
  have hs := window_reachable hreach
  obtain ⟨i, hfind, -⟩ := (matched_reachable hrecord).finds_newest hnode hack
  have hcount := (recorded_reachable hreach.restrict_true).count
  obtain ⟨⟨result, freed, s⟩, hrecv⟩ := Option.isSome_iff_exists.1
    (Sender.recvACK_isSome stop hs ⟨i, hfind⟩ (by omega) hfit)
  rw [Session.call, hrecv]
  exact ⟨_, rfl, (recvACK_acked hs hrecv).1.packseq_le hs⟩

/-- The calls return as long as there are packet numbers left, in any order. -/
theorem ackCalls_isSome {t : Session} (hreach : sender.Reachable t)
    (acks : List (ℤ × Timespec)) (hnodup : (acks.map Prod.fst).Nodup)
    (hlisted : ∀ num ∈ acks.map Prod.fst,
      ∃ node ∈ t.cbuffer.nodes, node.seqnum = num ∧ node.ack = 1)
    (hfit : t.cbuffer.packseq + 20000 * acks.length ≤ 2147483647) :
    ∃ t', t.run (ackCalls acks) = some t' ∧
      t'.cbuffer.packseq ≤ t.cbuffer.packseq + 20000 * acks.length := by
  induction acks using List.reverseRecOn with
  | nil => exact ⟨t, rfl, by simp⟩
  | append_singleton acks ack ih =>
      rw [List.map_append, List.map_singleton] at hnodup hlisted
      rw [List.length_append, List.length_singleton] at hfit ⊢
      push_cast at hfit ⊢
      obtain ⟨hnodup', -, hnot⟩ := List.nodup_append.1 hnodup
      have hlisted' : ∀ num ∈ acks.map Prod.fst,
          ∃ node ∈ t.cbuffer.nodes, node.seqnum = num ∧ node.ack = 1 :=
        fun num hnum => hlisted num (List.mem_append_left _ hnum)
      obtain ⟨t₁, hfront, hle⟩ := ih hnodup' hlisted' (by omega)
      obtain ⟨hreach₁, hsettled⟩ := settled_run hreach hnodup' hlisted' hfront
      have hunder : Underway t₁.cbuffer ack.1 := by
        obtain ⟨node, hnode, hnum, hack⟩ := hlisted ack.1 (by simp)
        refine ⟨node, hsettled.mem hnode hack fun hmem => ?_, hack, hnum⟩
        exact hnot _ hmem _ (List.mem_singleton_self _) hnum
      obtain ⟨t₂, hcall, hle'⟩ :=
        hunder.recvACK_isSome hreach₁ ack.2 (by omega)
      refine ⟨t₂, ?_, by omega⟩
      rw [ackCalls, List.map_append, List.map_singleton]
      exact run_concat.2 ⟨t₁, hfront, hcall⟩

/-! ## Agreement -/

/-- The places of the buffer that the packets cover, in order. -/
def covered (nodes : List PackNode) : List ℤ :=
  nodes.flatMap fun node =>
    (List.range node.size.toNat).map fun i : ℕ => (node.data + i) % 64000

theorem Tiles.covered_eq {nodes : List PackNode} :
    ∀ {data seq data' seq' : ℤ}, Tiles data seq nodes data' seq' →
      covered nodes = (List.range (total nodes).toNat).map fun i : ℕ =>
        (data + i) % 64000 := by
  induction nodes with
  | nil =>
      rintro data seq data' seq' -
      rfl
  | cons node nodes ih =>
      rintro data seq data' seq' ⟨hdata, -, hpos, -, hrest⟩
      have hnonneg := total_nonneg hrest.size_bounds
      have htotal : (total (node :: nodes)).toNat =
          node.size.toNat + (total nodes).toNat := by
        rw [total_cons]
        omega
      rw [htotal, List.range_add, List.map_append, List.map_map,
        covered, List.flatMap_cons, ← covered, ih hrest, hdata]
      congr 1
      apply List.map_congr_left
      intro i _
      simp only [Function.comp_apply]
      push_cast
      omega

/-- The packets of `s` that are still listed in `s'`. -/
def surviving (s s' : CBuffer) : List PackNode :=
  s'.nodes.filter fun node => node.seqnum ∈ s.nodes.map PackNode.seqnum

/-- What two buffers that came from the same one have in common. -/
structure Agree (s s₁ s₂ : CBuffer) : Prop where
  dstart_eq : s₁.dstart = s₂.dstart
  dend_eq : s₁.dend = s₂.dend
  spaceLeft_eq : s₁.spaceLeft.1 = s₂.spaceLeft.1
  surviving_eq : surviving s s₁ = surviving s s₂
  covered_eq : covered s₁.nodes = covered s₂.nodes
  packtimes_eq : s₁.packtimes = s₂.packtimes

theorem Settled.surviving_eq {s s' : CBuffer} {nums : List ℤ} (hs : Window s)
    (hsettled : Settled s nums s') :
    surviving s s' = (acknowledged nums s.nodes).dropWhile acked := by
  obtain ⟨new, hnodes, hnew⟩ := hsettled.nodes_eq
  obtain ⟨first, htiles⟩ := hs.tiles
  have hold : ((acknowledged nums s.nodes).dropWhile acked).filter
      (fun node => node.seqnum ∈ s.nodes.map PackNode.seqnum) =
        (acknowledged nums s.nodes).dropWhile acked := by
    rw [List.filter_eq_self]
    intro node hnode
    obtain ⟨node', hmem, rfl⟩ := List.mem_map.1 (List.dropWhile_subset _ hnode)
    rw [decide_eq_true_eq, List.mem_map]
    refine ⟨node', hmem, ?_⟩
    split <;> rfl
  have hnone : new.filter
      (fun node => node.seqnum ∈ s.nodes.map PackNode.seqnum) = [] := by
    rw [List.filter_eq_nil_iff]
    intro node hnode hmem
    rw [decide_eq_true_eq, List.mem_map] at hmem
    obtain ⟨other, hother, hseqnum⟩ := hmem
    have hbound := htiles.seqnum_bounds other hother
    have hlow := (hnew node hnode).2
    omega
  rw [surviving, hnodes, List.filter_append, hold, hnone, List.append_nil]

theorem Settled.agree {s s₁ s₂ : CBuffer} {nums : List ℤ} (hs : Window s)
    (hs₁ : Window s₁) (hs₂ : Window s₂) (hsettled₁ : Settled s nums s₁)
    (hsettled₂ : Settled s nums s₂) : Agree s s₁ s₂ := by
  have hdstart : s₁.dstart = s₂.dstart :=
    hsettled₁.dstart_eq.trans hsettled₂.dstart_eq.symm
  have hused : used s₁ = used s₂ :=
    hsettled₁.used_eq.trans hsettled₂.used_eq.symm
  refine
    { dstart_eq := hdstart
      dend_eq := hsettled₁.dend_eq.trans hsettled₂.dend_eq.symm
      spaceLeft_eq := by rw [Sender.spaceLeft_eq, Sender.spaceLeft_eq, hused]
      surviving_eq := by
        rw [hsettled₁.surviving_eq hs, hsettled₂.surviving_eq hs]
      covered_eq := ?_
      packtimes_eq := hsettled₁.packtimes_eq.trans hsettled₂.packtimes_eq.symm }
  obtain ⟨first₁, htiles₁⟩ := hs₁.tiles
  obtain ⟨first₂, htiles₂⟩ := hs₂.tiles
  rw [htiles₁.covered_eq, htiles₂.covered_eq, hs₁.total_eq, hs₂.total_eq, hused,
    hdstart]

/-- The order in which packets under way are acknowledged makes no difference,
except for how the new packets are cut.  In every order the calls return, as
long as there are packet numbers left. -/
theorem agree_of_perm (t : Session) (hreach : sender.Reachable t)
    (acks₁ acks₂ : List (ℤ × Timespec))
    (hnodup : (acks₁.map Prod.fst).Nodup)
    (hperm : (acks₁.map Prod.fst).Perm (acks₂.map Prod.fst))
    (hlisted : ∀ num ∈ acks₁.map Prod.fst,
      ∃ node ∈ t.cbuffer.nodes, node.seqnum = num ∧ node.ack = 1) :
    (t.cbuffer.packseq + 20000 * acks₁.length ≤ 2147483647 →
      ∃ t₁ t₂, t.run (ackCalls acks₁) = some t₁ ∧
        t.run (ackCalls acks₂) = some t₂) ∧
    ∀ t₁ t₂, t.run (ackCalls acks₁) = some t₁ →
      t.run (ackCalls acks₂) = some t₂ →
      Agree t.cbuffer t₁.cbuffer t₂.cbuffer := by
  have hnodup₂ := hperm.nodup_iff.1 hnodup
  have hlisted₂ : ∀ num ∈ acks₂.map Prod.fst,
      ∃ node ∈ t.cbuffer.nodes, node.seqnum = num ∧ node.ack = 1 :=
    fun num hnum => hlisted num (hperm.mem_iff.2 hnum)
  constructor
  · intro hfit
    have hlength : acks₁.length = acks₂.length := by
      simpa using hperm.length_eq
    obtain ⟨t₁, hrun₁, -⟩ := ackCalls_isSome hreach acks₁ hnodup hlisted hfit
    obtain ⟨t₂, hrun₂, -⟩ := ackCalls_isSome hreach acks₂ hnodup₂ hlisted₂
      (hlength ▸ hfit)
    exact ⟨t₁, t₂, hrun₁, hrun₂⟩
  · intro t₁ t₂ hrun₁ hrun₂
    obtain ⟨hreach₁, hsettled₁⟩ := settled_run hreach hnodup hlisted hrun₁
    obtain ⟨hreach₂, hsettled₂⟩ := settled_run hreach hnodup₂ hlisted₂ hrun₂
    exact hsettled₁.agree (window_reachable hreach) (window_reachable hreach₁)
      (window_reachable hreach₂) (hsettled₂.congr fun num => hperm.mem_iff)

/-- Two packets are under way and acknowledged in both orders: they are freed
one at a time, or both at once. -/
theorem agree_of_perm_twoBytes :
    ∃ t₁ t₂,
      (twoBytesSent 1 1).run (ackCalls [(1, ⟨0, 0⟩), (2, ⟨0, 0⟩)]) = some t₁ ∧
      (twoBytesSent 1 1).run (ackCalls [(2, ⟨0, 0⟩), (1, ⟨0, 0⟩)]) = some t₂ ∧
      Agree (twoBytesSent 1 1).cbuffer t₁.cbuffer t₂.cbuffer := by
  have hlisted : ∀ num ∈ ([1, 2] : List ℤ),
      ∃ node ∈ (twoBytesSent 1 1).cbuffer.nodes,
        node.seqnum = num ∧ node.ack = 1 := by
    simp [twoBytesSent]
  obtain ⟨hreturn, hagree⟩ := agree_of_perm (twoBytesSent 1 1)
    twoBytesSent_reachable [(1, ⟨0, 0⟩), (2, ⟨0, 0⟩)]
    [(2, ⟨0, 0⟩), (1, ⟨0, 0⟩)] (by decide) (by decide) hlisted
  obtain ⟨t₁, t₂, hrun₁, hrun₂⟩ := hreturn (by decide)
  exact ⟨t₁, t₂, hrun₁, hrun₂, hagree t₁ t₂ hrun₁ hrun₂⟩

end UdpTransfer.Sender
