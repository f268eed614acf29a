import UdpTransfer.Sender.Slots
import UdpTransfer.Sender.Stream

/-!
# Entries and packets under way

Between calls, exactly the packets under way have an entry of `packtimes` that
is on.  A packet can have older entries, but these are off when it is sent
again, and so the entry it is then given, the first that is off, lies in front
of them.  As long as all chunks but the last have 1000 bytes, at most twenty
packets are listed and the search for a free entry ends inside the array.
-/

namespace UdpTransfer.Sender

open UdpTransfer.Memory
open UdpTransfer.Runs
open UdpTransfer.Wire
open UdpTransfer.Writes
open CBuffer

/-- The entries that are on belong to the packets under way, one each.  Each is
the first with its number, and the one written last for it. -/
structure Matched (packtimes : List RttPack) (writes : List (ℕ × ℤ))
    (under : ℤ → Prop) : Prop where
  on_eq : ∀ (i : ℕ) (slot : RttPack), packtimes[i]? = some slot →
    slot.on ≠ 0 → slot.on = 1
  newest : ∀ (i : ℕ) (slot : RttPack), packtimes[i]? = some slot →
    slot.on ≠ 0 → Newest writes i slot.bsn
  first : ∀ (i : ℕ) (slot : RttPack), packtimes[i]? = some slot →
    slot.on ≠ 0 → ∀ j < i, ∀ other : RttPack, packtimes[j]? = some other →
    other.bsn ≠ slot.bsn
  under_iff : ∀ num, under num ↔ ∃ (i : ℕ) (slot : RttPack),
    packtimes[i]? = some slot ∧ slot.on ≠ 0 ∧ slot.bsn = num

section Matched

variable {packtimes : List RttPack} {writes : List (ℕ × ℤ)} {under : ℤ → Prop}

theorem Matched.congr {under' : ℤ → Prop}
    (hmatched : Matched packtimes writes under)
    (hunder : ∀ num, under' num ↔ under num) :
    Matched packtimes writes under' :=
  ⟨hmatched.on_eq, hmatched.newest, hmatched.first,
    fun num => (hunder num).trans (hmatched.under_iff num)⟩

/-- A packet that is not under way is given the first entry that is off. -/
theorem Matched.take {num : ℤ} {k : ℕ} (hmatched : Matched packtimes writes under)
    (hnot : ¬ under num)
    (hfree : packtimes.findIdx? (fun slot => slot.on = 0) = some k)
    (clock : Timespec) :
    Matched (packtimes.set k { bsn := num, on := 1, timestart := clock })
      (writes ++ [(k, num)]) (fun other => other = num ∨ under other) := by
  obtain ⟨hk, hoff, hlower⟩ := List.findIdx?_eq_some_iff_getElem.1 hfree
  rw [decide_eq_true_eq] at hoff
  have hself : (packtimes.set k { bsn := num, on := 1, timestart := clock })[k]? =
      some { bsn := num, on := 1, timestart := clock } := by
    rw [List.getElem?_set_self hk]
  have hother : ∀ i, k ≠ i →
      (packtimes.set k { bsn := num, on := 1, timestart := clock })[i]? =
        packtimes[i]? := fun i hne => List.getElem?_set_ne hne
  -- no entry that is on bears the number yet
  have hnew : ∀ (i : ℕ) (slot : RttPack), packtimes[i]? = some slot →
      slot.on ≠ 0 → slot.bsn ≠ num := fun i slot hslot hon hbsn =>
    hnot ((hmatched.under_iff num).2 ⟨i, slot, hslot, hon, hbsn⟩)
  refine ⟨fun i slot hslot hon => ?_, fun i slot hslot hon => ?_,
    fun i slot hslot hon j hj other hother' => ?_, fun other => ?_⟩
  · by_cases hplace : k = i
    · rw [← hplace, hself] at hslot
      cases hslot
      rfl
    · rw [hother i hplace] at hslot
      exact hmatched.on_eq i slot hslot hon
  · by_cases hplace : k = i
    · rw [← hplace, hself] at hslot
      cases hslot
      rw [hplace]
      exact lastWrite_concat_self rfl
    · rw [hother i hplace] at hslot
      exact (hmatched.newest i slot hslot hon).concat
        (hnew i slot hslot hon).symm
  · by_cases hplace : k = i
    · rw [← hplace, hself] at hslot
      cases hslot
      rw [hother j (by omega)] at hother'
      have hon' := hlower j (by omega)
      rw [List.getElem?_eq_getElem (by omega), Option.some.injEq] at hother'
      rw [hother', decide_eq_true_eq] at hon'
      refine hnew j other ?_ hon'
      rw [List.getElem?_eq_getElem (by omega), hother']
    · rw [hother i hplace] at hslot
      by_cases hplace' : k = j
      · rw [← hplace', hself] at hother'
        cases hother'
        exact (hnew i slot hslot hon).symm
      · rw [hother j hplace'] at hother'
        exact hmatched.first i slot hslot hon j hj other hother'
  · constructor
    · rintro (rfl | hunder)
      · exact ⟨k, _, hself, by simp, rfl⟩
      · obtain ⟨i, slot, hslot, hon, hbsn⟩ := (hmatched.under_iff other).1 hunder
        refine ⟨i, slot, ?_, hon, hbsn⟩
        rw [hother i, hslot]
        rintro rfl
        rw [List.getElem?_eq_getElem hk, Option.some.injEq] at hslot
        exact hon (hslot ▸ hoff)
    · rintro ⟨i, slot, hslot, hon, hbsn⟩
      by_cases hplace : k = i
      · rw [← hplace, hself] at hslot
        cases hslot
        exact .inl hbsn.symm
      · rw [hother i hplace] at hslot
        exact .inr ((hmatched.under_iff other).2 ⟨i, slot, hslot, hon, hbsn⟩)

/-- Entries of one number are switched off, the first among them. -/
theorem Matched.off {packtimes' : List RttPack} {num : ℤ}
    (hmatched : Matched packtimes writes under)
    (hbsn : packtimes'.map RttPack.bsn = packtimes.map RttPack.bsn)
    (hkept : ∀ (i : ℕ) (slot : RttPack), packtimes[i]? = some slot →
      slot.bsn ≠ num → packtimes'[i]? = some slot)
    (hoff : ∀ (i : ℕ) (slot' : RttPack), packtimes'[i]? = some slot' →
      slot'.on ≠ 0 → packtimes[i]? = some slot' ∧ slot'.bsn ≠ num) :
    Matched packtimes' writes (fun other => other ≠ num ∧ under other) := by
  have hsame : ∀ (j : ℕ) (other' : RttPack), packtimes'[j]? = some other' →
      ∃ other, packtimes[j]? = some other ∧ other.bsn = other'.bsn := by
    intro j other' hother'
    have hplace := congrArg (·[j]?) hbsn
    simp only [List.getElem?_map, hother', Option.map_some] at hplace
    exact Option.map_eq_some_iff.1 hplace.symm
  refine ⟨fun i slot hslot hon => ?_, fun i slot hslot hon => ?_,
    fun i slot hslot hon j hj other' hother' => ?_, fun other => ?_⟩
  · exact hmatched.on_eq i slot (hoff i slot hslot hon).1 hon
  · exact hmatched.newest i slot (hoff i slot hslot hon).1 hon
  · obtain ⟨other, hother, hequal⟩ := hsame j other' hother'
    rw [← hequal]
    exact hmatched.first i slot (hoff i slot hslot hon).1 hon j hj other hother
  · constructor
    · rintro ⟨hne, hunder⟩
      obtain ⟨i, slot, hslot, hon, rfl⟩ := (hmatched.under_iff other).1 hunder
      exact ⟨i, slot, hkept i slot hslot hne, hon, rfl⟩
    · rintro ⟨i, slot, hslot, hon, rfl⟩
      obtain ⟨hslot', hne⟩ := hoff i slot hslot hon
      exact ⟨hne, (hmatched.under_iff _).2 ⟨i, slot, hslot', hon, rfl⟩⟩

/-- An entry that is on is found by its number. -/
theorem Matched.place_eq {num : ℤ} {i k : ℕ} {slot : RttPack}
    (hmatched : Matched packtimes writes under)
    (hfind : packtimes.findIdx? (fun slot => slot.bsn = num) = some k)
    (hslot : packtimes[i]? = some slot) (hon : slot.on ≠ 0)
    (hbsn : slot.bsn = num) : i = k := by
  obtain ⟨hk, hnum, hlower⟩ := List.findIdx?_eq_some_iff_getElem.1 hfind
  rw [decide_eq_true_eq] at hnum
  rcases lt_trichotomy i k with hlt | heq | hgt
  · have hnone := hlower i hlt
    rw [List.getElem?_eq_getElem (by omega), Option.some.injEq] at hslot
    rw [hslot, decide_eq_true_eq] at hnone
    exact absurd hbsn hnone
  · exact heq
  · exact absurd (hnum.trans hbsn.symm)
      (hmatched.first i slot hslot hon k hgt _ (List.getElem?_eq_getElem hk))

/-- Switching off the first entry of a number and switching off all of them is
the same: no other is on. -/
theorem Matched.modify_eq_map {num : ℤ} {k : ℕ}
    (hmatched : Matched packtimes writes under)
    (hfind : packtimes.findIdx? (fun slot => slot.bsn = num) = some k) :
    (packtimes.modify k fun slot => { slot with on := 0 }) =
      packtimes.map fun slot =>
        if slot.bsn = num then { slot with on := 0 } else slot := by
  obtain ⟨hk, hnum, -⟩ := List.findIdx?_eq_some_iff_getElem.1 hfind
  rw [decide_eq_true_eq] at hnum
  apply List.ext_getElem?
  intro i
  rw [List.getElem?_modify, List.getElem?_map]
  cases hslot : packtimes[i]? with
  | none => rfl
  | some slot =>
      simp only [Option.map_eq_map, Option.map_some, Option.some.injEq]
      by_cases hi : k = i
      · rw [← hi, List.getElem?_eq_getElem hk, Option.some.injEq] at hslot
        rw [if_pos hi, if_pos (hslot ▸ hnum)]
      · rw [if_neg hi]
        split
        · rename_i hbsn
          have hoff : slot.on = 0 := by
            by_contra hon
            exact hi (hmatched.place_eq hfind hslot hon hbsn).symm
          rw [← hoff]
        · rfl

/-- Every entry of a number is switched off. -/
theorem Matched.switch_off {num : ℤ} (hmatched : Matched packtimes writes under) :
    Matched (packtimes.map fun slot =>
        if slot.bsn = num then { slot with on := 0 } else slot) writes
      (fun other => other ≠ num ∧ under other) := by
  refine hmatched.off (map_bsn_off packtimes num) ?_ ?_
  · intro i slot hslot hne
    rw [List.getElem?_map, hslot, Option.map_some, if_neg hne]
  · intro i slot' hslot' hon
    rw [List.getElem?_map] at hslot'
    obtain ⟨slot, hslot, heq⟩ := Option.map_eq_some_iff.1 hslot'
    split at heq
    · rw [← heq] at hon
      exact absurd rfl hon
    · rename_i hne
      rw [← heq]
      exact ⟨hslot, hne⟩

end Matched

/-- The packet is under way. -/
def Underway (s : CBuffer) (num : ℤ) : Prop :=
  ∃ node ∈ s.nodes, node.ack = 1 ∧ node.seqnum = num

theorem Rewindowed.underway_iff {s s' : CBuffer}
    {freed kept new : List PackNode} (hrewind : Rewindowed s freed kept new s')
    (num : ℤ) : Underway s' num ↔ Underway s num := by
  simp only [Underway, hrewind.nodes_eq, hrewind.nodes_eq', List.mem_append]
  constructor
  · rintro ⟨node, hnode | hnode, hack, hnum⟩
    · exact ⟨node, .inr hnode, hack, hnum⟩
    · have hzero := hrewind.new_ack node hnode
      omega
  · rintro ⟨node, hnode | hnode, hack, hnum⟩
    · have htwo := hrewind.freed_acked node hnode
      omega
    · exact ⟨node, .inl hnode, hack, hnum⟩

theorem Added.underway_iff {s s' : CBuffer} {data : List UInt8} {result : ℤ}
    (hadded : Added s data result s') (num : ℤ) :
    Underway s' num ↔ Underway s num := by
  cases hadded with
  | accepted mid s' new hstored hrewind =>
      rw [← hstored.nodes_eq] at hrewind
      rw [hrewind.underway_iff, Underway, hstored.nodes_eq, Underway]
  | rejected mid s' _ hmid hrewind =>
      have hnodes := (touched_spaceLeft s).nodes_eq
      rw [← hmid] at hnodes
      rw [← hnodes] at hrewind
      rw [hrewind.underway_iff, Underway, hnodes, Underway]

/-- Marking one packet changes what is under way for its number alone. -/
theorem underway_marked {s s' : CBuffer} {before after : List PackNode}
    {node : PackNode} {ack : ℤ} (hs : Window s)
    (hnodes : s.nodes = before ++ node :: after)
    (hmarked : s'.nodes = marked before node ack after) (num : ℤ) :
    Underway s' num ↔
      if num = node.seqnum then ack = 1 else Underway s num := by
  obtain ⟨hbefore, hafter⟩ := hs.seqnum_ne hnodes
  simp only [Underway, hnodes, hmarked, marked, List.mem_append, List.mem_cons]
  split
  · rename_i hnum
    constructor
    · rintro ⟨other, hother | rfl | hother, hack, hseqnum⟩
      · exact absurd (hseqnum.trans hnum) (hbefore other hother)
      · exact hack
      · exact absurd (hseqnum.trans hnum) (hafter other hother)
    · intro hack
      exact ⟨_, .inr (.inl rfl), hack, hnum.symm⟩
  · rename_i hnum
    constructor
    · rintro ⟨other, hother | rfl | hother, hack, hseqnum⟩
      · exact ⟨other, .inl hother, hack, hseqnum⟩
      · exact absurd hseqnum.symm hnum
      · exact ⟨other, .inr (.inr hother), hack, hseqnum⟩
    · rintro ⟨other, hother | rfl | hother, hack, hseqnum⟩
      · exact ⟨other, .inl hother, hack, hseqnum⟩
      · exact absurd hseqnum.symm hnum
      · exact ⟨other, .inr (.inr hother), hack, hseqnum⟩

theorem Transmits.underway_iff {s s' : CBuffer} {sent : Sent}
    {before after : List PackNode} {node : PackNode} {slot : ℕ}
    {clock : Timespec}
    (hsend : Transmits s sent before node after slot clock s') (hs : Window s)
    (num : ℤ) : Underway s' num ↔ num = node.seqnum ∨ Underway s num := by
  have hmarked : s'.nodes = marked before node 1 after := by
    rw [hsend.state_eq]
  rw [underway_marked hs hsend.nodes_eq hmarked]
  split
  · rename_i hnum
    simp [hnum]
  · rename_i hnum
    simp [hnum]

theorem Transmits.not_underway {s s' : CBuffer} {sent : Sent}
    {before after : List PackNode} {node : PackNode} {slot : ℕ}
    {clock : Timespec}
    (hsend : Transmits s sent before node after slot clock s')
    (hs : Window s) : ¬ Underway s node.seqnum := by
  obtain ⟨hbefore, hafter⟩ := hs.seqnum_ne hsend.nodes_eq
  have hnot := hsend.not_sent
  rintro ⟨other, hother, hack, hseqnum⟩
  rw [hsend.nodes_eq, List.mem_append, List.mem_cons] at hother
  rcases hother with hother | rfl | hother
  · exact hbefore other hother hseqnum
  · omega
  · exact hafter other hother hseqnum

theorem Acked.underway_iff {s s' : CBuffer} {num result : ℤ}
    {freed : List PackNode} (hacked : Acked s num result freed s')
    (hs : Window s) (other : ℤ) :
    Underway s' other ↔ other ≠ num ∧ Underway s other := by
  cases hacked with
  | absent i s' _ hnone _ hnodes _ =>
      rw [Underway, hnodes]
      constructor
      · rintro ⟨node, hnode, hack, rfl⟩
        exact ⟨hnone node hnode, node, hnode, hack, rfl⟩
      · exact fun h => h.2
  | listed i mid s' before after node freed kept new _ hnodes hnum _ hmid _
      hrewind =>
      rw [hrewind.underway_iff, underway_marked hs hnodes hmid, hnum]
      split
      · rename_i hother
        simp [hother]
      · rename_i hother
        simp [hother]

theorem underway_timerExpire (s : CBuffer) (bsn num : ℤ) :
    Underway (s.timerExpire bsn) num ↔ num ≠ bsn ∧ Underway s num := by
  simp only [Underway, timerExpire, List.mem_map]
  constructor
  · rintro ⟨_, ⟨node, hnode, rfl⟩, hack, hnum⟩
    split at hack
    · cases hack
    · rename_i hne
      rw [if_neg hne] at hnum
      exact ⟨hnum ▸ hne, node, hnode, hack, hnum⟩
  · rintro ⟨hne, node, hnode, hack, hnum⟩
    refine ⟨node, ⟨node, hnode, ?_⟩, hack, hnum⟩
    rw [if_neg (hnum ▸ hne)]

theorem matched_start :
    Matched CBuffer.start.packtimes [] (Underway CBuffer.start) := by
  have hoff : ∀ (i : ℕ) (slot : RttPack),
      CBuffer.start.packtimes[i]? = some slot → slot.on = 0 := by
    intro i slot hslot
    rw [List.eq_of_mem_replicate (List.mem_of_getElem? hslot)]
  refine ⟨?_, ?_, ?_, ?_⟩
  · exact fun i slot hslot hon => absurd (hoff i slot hslot) hon
  · exact fun i slot hslot hon => absurd (hoff i slot hslot) hon
  · exact fun i slot hslot hon => absurd (hoff i slot hslot) hon
  · intro num
    simp only [Underway, CBuffer.start, List.not_mem_nil, false_and,
      exists_false, false_iff]
    rintro ⟨i, slot, hslot, hon, -⟩
    exact hon (hoff i slot hslot)

theorem Matched.transmits {s s' : CBuffer} {sent : Sent}
    {before after : List PackNode} {node : PackNode} {slot : ℕ}
    {clock : Timespec} {writes : List (ℕ × ℤ)}
    (hmatched : Matched s.packtimes writes (Underway s)) (hs : Window s)
    (hsend : Transmits s sent before node after slot clock s') :
    Matched s'.packtimes (writes ++ [(slot, node.seqnum)]) (Underway s') := by
  have hpacktimes : s'.packtimes = s.packtimes.set slot
      { bsn := node.seqnum, on := 1, timestart := clock } := by
    rw [hsend.state_eq]
  rw [hpacktimes]
  exact (hmatched.take (hsend.not_underway hs) hsend.slot_off clock).congr
    (hsend.underway_iff hs)

theorem Matched.writings {s s' : CBuffer} {writes taken : List (ℕ × ℤ)}
    (hmatched : Matched s.packtimes writes (Underway s))
    (hwritings : Writings s taken s') :
    Matched s'.packtimes (writes ++ taken) (Underway s') := by
  induction hwritings with
  | nil => rwa [List.append_nil]
  | snoc _ hmid hsend ih =>
      rw [← List.append_assoc]
      exact ih.transmits hmid hsend

/-- In every run the entries that are on and the packets under way match. -/
theorem matched_reachable {h : History} (hreach : recorder.Reachable h) :
    Matched h.session.cbuffer.packtimes h.writes
      (Underway h.session.cbuffer) := by
  refine history_invariant
    (I := fun s writes => Matched s.packtimes writes (Underway s))
    matched_start ?_ ?_ ?_ ?_ hreach
  · intro s chunk result s' writes _ hadded hmatched
    rw [hadded.packtimes_eq]
    exact hmatched.congr hadded.underway_iff
  · intro s sent before node after slot clock s' writes hs hsend hmatched
    exact hmatched.transmits hs hsend
  · intro s num result freed s' writes hs hacked hmatched
    obtain ⟨i, hfind, hpacktimes⟩ := hacked.packtimes_eq
    rw [hpacktimes, hmatched.modify_eq_map hfind]
    exact hmatched.switch_off.congr (hacked.underway_iff hs)
  · intro s bsn writes _ hmatched
    exact hmatched.switch_off.congr (underway_timerExpire s bsn)

/-! ## Chunks of full size -/

/-- All packets but the last have full size. -/
def Full (nodes : List PackNode) : Prop :=
  ∀ size ∈ (nodes.map PackNode.size).dropLast, size = 1000

/-- The packets cut the buffer into pieces of full size, and as long as only
chunks of full size have been added, nothing else is left over. -/
structure Cut (s : CBuffer) (chunks : List ℕ) : Prop where
  full : Full s.nodes
  whole : (∀ size ∈ chunks, size = 1000) → used s % 1000 = 0

theorem full_congr {nodes nodes' : List PackNode}
    (hshape : shape nodes' = shape nodes) : Full nodes' ↔ Full nodes := by
  have hsizes := congrArg (List.map fun entry : ℤ × ℤ × ℤ => entry.2.2) hshape
  simp only [shape, List.map_map] at hsizes
  have hsizes' : nodes'.map PackNode.size = nodes.map PackNode.size := hsizes
  rw [Full, Full, hsizes']

theorem total_of_full {nodes : List PackNode}
    (hsizes : ∀ node ∈ nodes, node.size = 1000) :
    total nodes = 1000 * nodes.length := by
  induction nodes with
  | nil => rfl
  | cons node nodes ih =>
      rw [List.forall_mem_cons] at hsizes
      rw [total_cons, ih hsizes.2, hsizes.1, List.length_cons]
      push_cast
      omega

theorem full_concat {front : List PackNode} {last : PackNode} :
    Full (front ++ [last]) ↔ ∀ node ∈ front, node.size = 1000 := by
  simp [Full]

/-- Unless all packets have full size, the last alone has less. -/
theorem Full.total_cases {nodes : List PackNode} (hfull : Full nodes)
    (hsizes : ∀ node ∈ nodes, 1 ≤ node.size ∧ node.size ≤ 1000) :
    (∀ node ∈ nodes, node.size = 1000) ∨
      1000 * (nodes.length - 1 : ℤ) < total nodes ∧
        total nodes < 1000 * nodes.length := by
  rcases List.eq_nil_or_concat nodes with hnil | ⟨front, last, hconcat⟩
  · simp [hnil]
  · rw [List.concat_eq_append] at hconcat
    rw [hconcat] at hfull hsizes ⊢
    have hfront := full_concat.1 hfull
    have hlast := hsizes last (by simp)
    by_cases hsize : last.size = 1000
    · refine .inl fun node hnode => ?_
      rcases List.mem_append.1 hnode with hnode | hnode
      · exact hfront node hnode
      · rw [List.mem_singleton.1 hnode, hsize]
    · rw [total_append, total_of_full hfront, total_cons, total_nil,
        List.length_append, List.length_singleton]
      push_cast
      omega

/-- At most twenty packets are listed. -/
theorem Window.length_le {s : CBuffer} (hs : Window s) (hfull : Full s.nodes) :
    s.nodes.length ≤ 20 := by
  obtain ⟨first, htiles⟩ := hs.tiles
  have htotal := hs.total_eq
  rcases hfull.total_cases htiles.size_bounds with hsizes | hbounds
  · rw [total_of_full hsizes] at htotal
    omega
  · omega

/-- Where whole chunks are stored, all packets have full size. -/
theorem Full.size_eq {nodes : List PackNode} {count : ℤ} (hfull : Full nodes)
    (hsizes : ∀ node ∈ nodes, 1 ≤ node.size ∧ node.size ≤ 1000)
    (htotal : total nodes = min count 20000) (hwhole : count % 1000 = 0) :
    ∀ node ∈ nodes, node.size = 1000 := by
  rcases hfull.total_cases hsizes with hsizes | hbounds
  · exact hsizes
  · omega

/-- A packet of less than full size is the last of all that is stored. -/
theorem Full.total_eq {nodes : List PackNode} {count : ℤ} (hfull : Full nodes)
    (hsizes : ∀ node ∈ nodes, 1 ≤ node.size ∧ node.size ≤ 1000)
    (htotal : total nodes = min count 20000)
    (hshort : ¬ ∀ node ∈ nodes, node.size = 1000) : total nodes = count := by
  rcases hfull.total_cases hsizes with hsizes | hbounds
  · exact absurd hsizes hshort
  · omega

theorem full_append {kept new : List PackNode}
    (hkept : ∀ node ∈ kept, node.size = 1000)
    (hnew : ∀ node ∈ new.dropLast, node.size = 1000) :
    Full (kept ++ new) := by
  rcases List.eq_nil_or_concat new with hnil | ⟨front, last, hconcat⟩
  · rw [hnil, List.append_nil]
    intro size hsize
    obtain ⟨node, hnode, rfl⟩ := List.mem_map.1 (List.dropLast_subset _ hsize)
    exact hkept node hnode
  · rw [List.concat_eq_append] at hconcat
    rw [hconcat, ← List.append_assoc, full_concat]
    rw [hconcat, List.dropLast_concat] at hnew
    intro node hnode
    rcases List.mem_append.1 hnode with hnode | hnode
    · exact hkept node hnode
    · exact hnew node hnode

theorem Full.suffix {freed kept : List PackNode} (hfull : Full (freed ++ kept)) :
    Full kept := by
  rcases List.eq_nil_or_concat kept with hnil | ⟨front, last, hconcat⟩
  · simp [hnil, Full]
  · rw [List.concat_eq_append] at hconcat
    rw [hconcat, ← List.append_assoc, full_concat] at hfull
    rw [hconcat, full_concat]
    exact fun node hnode => hfull node (List.mem_append_right _ hnode)

/-! ## Cutting chunks of full size -/

theorem cut_start : Cut CBuffer.start [] :=
  ⟨by simp [Full, CBuffer.start], fun _ => by decide⟩

theorem Cut.mark {s s' : CBuffer} {chunks : List ℕ} (hcut : Cut s chunks)
    (hsame : SameBytes s s') (hshape : shape s'.nodes = shape s.nodes) :
    Cut s' chunks :=
  ⟨(full_congr hshape).2 hcut.full, fun hchunks => by
    rw [hsame.used_eq]
    exact hcut.whole hchunks⟩

/-- A chunk is accepted after chunks of full size. -/
theorem Cut.store {s mid s' : CBuffer} {chunks : List ℕ} {data : List UInt8}
    {new : List PackNode} (hcut : Cut s chunks) (hs : Window s)
    (hchunks : ∀ size ∈ chunks, size = 1000) (hstored : Stored s data mid)
    (hrewind : Rewindowed mid [] s.nodes new s') :
    Cut s' (chunks ++ [data.length]) := by
  have hwhole := hcut.whole hchunks
  constructor
  · obtain ⟨first, htiles⟩ := hs.tiles
    rw [hrewind.nodes_eq']
    exact full_append
      (hcut.full.size_eq htiles.size_bounds hs.total_eq hwhole)
      hrewind.new_sizes
  · intro hall
    have hlength : data.length = 1000 := hall _ (by simp)
    have hne : data ≠ [] := by
      apply List.ne_nil_of_length_pos
      omega
    have hused := hstored.used_add hne
    rw [← hstored.nodes_eq] at hrewind
    rw [(hrewind.keep hstored.inBuffer).2, hused, hlength]
    omega

/-- Packets are freed.  Only where all bytes are listed can the last packet have
less than full size, and then nothing new is listed behind it. -/
theorem Cut.rewind {mid s' : CBuffer} {chunks : List ℕ}
    {freed kept new : List PackNode} (hcut : Cut mid chunks)
    (hrewind : Rewindowed mid freed kept new s') (hin : InBuffer mid)
    (hsizes : ∀ node ∈ mid.nodes, 1 ≤ node.size ∧ node.size ≤ 1000)
    (htotal : total mid.nodes = min (used mid) 20000) (hne : mid.nodes ≠ []) :
    Cut s' chunks := by
  have hnodes := hrewind.nodes_eq
  have hsum : total mid.nodes = total freed + total kept := by
    rw [hnodes, total_append]
  constructor
  · rw [hrewind.nodes_eq']
    by_cases hkept : ∀ node ∈ kept, node.size = 1000
    · exact full_append hkept hrewind.new_sizes
    · have hnil : new = [] := by
        by_contra hnew
        have hall : total mid.nodes = used mid :=
          hcut.full.total_eq hsizes htotal fun hfull =>
            hkept fun node hnode => hfull node (by simp [hnodes, hnode])
        have hused := hrewind.used_sub hin hsizes htotal hne (by
          rintro ⟨rfl, -⟩
          exact hkept (by simp))
        have hpos := total_pos hnew hrewind.new_tiles.size_bounds
        have htotal' := hrewind.total_eq
        rw [hrewind.nodes_eq', total_append] at htotal'
        omega
      rw [hnil, List.append_nil]
      exact Full.suffix (hnodes ▸ hcut.full)
  · intro hchunks
    have hwhole := hcut.whole hchunks
    have hfull := hcut.full.size_eq hsizes htotal hwhole
    have hfreed : total freed = 1000 * freed.length :=
      total_of_full fun node hnode => hfull node (by simp [hnodes, hnode])
    rw [hrewind.used_freed hin hsizes htotal hne]
    split
    · rfl
    · rw [hfreed]
      omega

theorem Cut.added {s s' : CBuffer} {chunk : List UInt8} {result : ℤ}
    {chunks : List ℕ} (hcut : Cut s chunks) (hs : Window s)
    (hadded : Added s chunk result s')
    (hchunks : result = 1 → ∀ size ∈ chunks, size = 1000) :
    Cut s' (chunks ++ if result = 1 then [chunk.length] else []) := by
  cases hadded with
  | accepted mid s' new hstored hrewind =>
      rw [if_pos rfl]
      exact hcut.store hs (hchunks rfl) hstored hrewind
  | rejected mid s' _ hmid hrewind =>
      rw [if_neg (by decide), List.append_nil]
      have htouched := touched_spaceLeft s
      rw [← hmid] at htouched
      constructor
      · rw [hrewind.nodes_eq', List.append_nil]
        exact hcut.full
      · rw [← htouched.nodes_eq] at hrewind
        rw [(hrewind.keep (htouched.window hs).toInBuffer).2, htouched.used_eq]
        exact hcut.whole

theorem Cut.acked {s s' : CBuffer} {num result : ℤ} {freed : List PackNode}
    {chunks : List ℕ} (hcut : Cut s chunks) (hs : Window s)
    (hacked : Acked s num result freed s') : Cut s' chunks := by
  cases hacked with
  | absent i s' _ _ hsame hnodes _ => exact hcut.mark hsame (by rw [hnodes])
  | listed i mid s' before after node freed kept new _ hnodes _ hsame hmid _
      hrewind =>
      have hshape : shape mid.nodes = shape s.nodes := by
        rw [hmid, hnodes, shape_marked]
      obtain ⟨⟨first, htiles⟩, htotal⟩ := hs.tiles_marked hsame hshape
      exact (hcut.mark hsame hshape).rewind hrewind
        (hsame.inBuffer hs.toInBuffer) htiles.size_bounds htotal
        (by simp [hmid, marked])

theorem chunkTaken_addData {s s' : CBuffer} {chunk : List UInt8} {result : ℤ}
    {freed : List PackNode}
    (hadd : s.addData chunk chunk.length = some (result, freed, s')) :
    chunkTaken s (.addData chunk) =
      if result = 1 then [chunk.length] else [] := by
  rw [chunkTaken, hadd]

theorem cut_reachable {h : History} (hreach : recorder.Reachable h)
    (hchunks : ∀ size ∈ h.chunks.dropLast, size = 1000) :
    Cut h.session.cbuffer h.chunks := by
  revert hchunks
  refine hreach.invariant_with
    (I := fun h => (∀ size ∈ h.chunks.dropLast, size = 1000) →
      Cut h.session.cbuffer h.chunks)
    (J := fun h => Window h.session.cbuffer) ?_ ?_ ?_
  · exact fun h hreach => window_reachable (session_reachable hreach)
  · rintro h rfl _
    exact cut_start
  · intro h c h' hs hinv hstep hchunks
    obtain ⟨hcall, -, htaken⟩ := History.call_eq_some.1 hstep
    rw [htaken] at hchunks ⊢
    cases c with
    | addData chunk =>
        rw [Session.call, Option.map_eq_some_iff] at hcall
        obtain ⟨⟨result, freed, s⟩, hleft, heq⟩ := hcall
        rw [chunkTaken_addData hleft] at hchunks ⊢
        rw [← heq]
        have hfull : result = 1 → ∀ size ∈ h.chunks, size = 1000 := by
          intro hresult
          rwa [if_pos hresult, List.dropLast_concat] at hchunks
        refine (hinv ?_).added hs (addData_added hs hleft).2.1 hfull
        by_cases hresult : result = 1
        · exact fun size hsize =>
            hfull hresult size (List.dropLast_subset _ hsize)
        · rwa [if_neg hresult, List.append_nil] at hchunks
    | sendWindow clock =>
        simp only [chunkTaken, List.append_nil] at hchunks ⊢
        rw [Session.call, Option.map_eq_some_iff] at hcall
        obtain ⟨⟨sents, s⟩, hleft, heq⟩ := hcall
        obtain ⟨hsame, hshape⟩ := (sendWindow_transmissions hs hleft).1.sameBytes
        rw [← heq]
        exact (hinv hchunks).mark hsame hshape
    | recvACK num stop =>
        simp only [chunkTaken, List.append_nil] at hchunks ⊢
        rw [Session.call, Option.map_eq_some_iff] at hcall
        obtain ⟨⟨result, freed, s⟩, hleft, heq⟩ := hcall
        rw [← heq]
        exact (hinv hchunks).acked hs (recvACK_acked hs hleft).1
    | timerExpire bsn =>
        simp only [chunkTaken, List.append_nil] at hchunks ⊢
        rw [← Option.some.inj hcall]
        exact (hinv hchunks).mark ⟨rfl, rfl, rfl, rfl, rfl⟩
          (shape_timerExpire _ bsn)

/-! ## The search of sendWindow -/

/-- Wherever the walk of `sendWindow` comes to a packet to send, the search for
a free entry stops inside the array. -/
def FindsFree (s : CBuffer) (clock : ℕ → Timespec) : Prop :=
  ∀ (i : ℕ) (sents : List Sent) (mid : CBuffer) (current : PackNode),
    (List.range i).foldlM (sendAt clock) ([], s) = some (sents, mid) →
    mid.nodes[i]? = some current → ¬ current.ack > 0 →
    ∃ slot < 20,
      mid.packtimes.findIdx? (fun slot => slot.on = 0) = some slot

theorem Writings.kept {s s' : CBuffer} {writes : List (ℕ × ℤ)}
    (hwritings : Writings s writes s') :
    shape s'.nodes = shape s.nodes ∧
      s'.packtimes.length = s.packtimes.length := by
  induction hwritings with
  | nil => exact ⟨rfl, rfl⟩
  | snoc _ _ hsend ih =>
      rw [hsend.state_eq]
      refine ⟨?_, ?_⟩
      · rw [shape_marked, ← hsend.nodes_eq, ih.1]
      · rw [List.length_set, ih.2]

/-- Were every entry on, twenty packets would be under way, and none of the at
most twenty packets left to be sent. -/
theorem Matched.finds_free {s : CBuffer} {writes : List (ℕ × ℤ)}
    (hmatched : Matched s.packtimes writes (Underway s)) (hs : Window s)
    (hfull : Full s.nodes) (hlength : s.packtimes.length = 20)
    {current : PackNode} (hcurrent : current ∈ s.nodes)
    (hnot : ¬ current.ack > 0) :
    ∃ slot < 20,
      s.packtimes.findIdx? (fun slot => slot.on = 0) = some slot := by
  cases hfind : s.packtimes.findIdx? fun slot => slot.on = 0 with
  | some slot =>
      have hslot := (List.findIdx?_eq_some_iff_getElem.1 hfind).1
      exact ⟨slot, by omega, rfl⟩
  | none =>
      exfalso
      have hon : ∀ slot ∈ s.packtimes, slot.on ≠ 0 := by
        simpa using List.findIdx?_eq_none_iff.1 hfind
      have hnodup : (s.packtimes.map RttPack.bsn).Nodup := by
        rw [List.Nodup, List.pairwise_map, List.pairwise_iff_getElem]
        intro i j hi hj hlt
        exact hmatched.first j _ (List.getElem?_eq_getElem hj)
          (hon _ (List.getElem_mem hj)) i hlt _ (List.getElem?_eq_getElem hi)
      have hsubset : s.packtimes.map RttPack.bsn ⊆
          (s.nodes.filter fun node => node.ack = 1).map PackNode.seqnum := by
        intro num hnum
        obtain ⟨slot, hslot, rfl⟩ := List.mem_map.1 hnum
        obtain ⟨i, hi⟩ := List.getElem?_of_mem hslot
        obtain ⟨node, hnode, hack, hseqnum⟩ :=
          (hmatched.under_iff _).2 ⟨i, slot, hi, hon slot hslot, rfl⟩
        exact List.mem_map.2 ⟨node, by simp [hnode, hack], hseqnum⟩
      have hcount := List.Nodup.length_le_of_subset hnodup hsubset
      have hless : (s.nodes.filter fun node => node.ack = 1).length <
          s.nodes.length := by
        rw [List.length_filter_lt_length_iff_exists]
        refine ⟨current, hcurrent, ?_⟩
        rw [decide_eq_true_eq]
        omega
      have hle := hs.length_le hfull
      rw [List.length_map, List.length_map, hlength] at hcount
      omega

theorem Tiles.data_bounds {nodes : List PackNode} :
    ∀ {data seq data' seq' : ℤ}, Tiles data seq nodes data' seq' →
      0 ≤ data → data < 64000 →
      ∀ node ∈ nodes, 0 ≤ node.data ∧ node.data < 64000 := by
  induction nodes with
  | nil => simp
  | cons node nodes ih =>
      rintro data seq data' seq' ⟨hdata, -, -, -, hrest⟩ hlow hhigh
      rw [List.forall_mem_cons, hdata]
      exact ⟨⟨hlow, hhigh⟩, ih hrest (by omega) (by omega)⟩

theorem packetBytes_isSome {node : PackNode} (cirbuffer : ℕ → UInt8)
    (hdata : 0 ≤ node.data ∧ node.data < 64000)
    (hsize : 1 ≤ node.size ∧ node.size ≤ 1000) :
    ∃ bytes, packetBytes cirbuffer node = some bytes := by
  rw [packetBytes]
  split
  · rw [memcpyOut, if_pos (by omega), memcpyOut, if_pos (by omega)]
    exact ⟨_, rfl⟩
  · rw [memcpyOut, if_pos (by omega)]
    exact ⟨_, rfl⟩

/-- A packet is sent if there is a free entry for it. -/
theorem sendNode_isSome {s : CBuffer} {slot : ℕ} {current : PackNode}
    (clock : Timespec) (i : ℕ) (hs : Window s) (hcurrent : current ∈ s.nodes)
    (hfree : s.packtimes.findIdx? (fun slot => slot.on = 0) = some slot) :
    ∃ sent s', s.sendNode clock i current = some (sent, s') := by
  obtain ⟨first, htiles⟩ := hs.tiles
  have hsize := htiles.size_bounds current hcurrent
  obtain ⟨bytes, hbytes⟩ := packetBytes_isSome s.cirbuffer
    (htiles.data_bounds hs.dstart_nonneg hs.dstart_lt current hcurrent) hsize
  obtain ⟨before, after, hsplit⟩ := List.append_of_mem hcurrent
  have hne := (hs.seqnum_ne hsplit).1
  rw [sendNode, hsplit]
  dsimp only
  rw [requestSize_mid hne rfl]
  dsimp only
  rw [requestData_mid hne rfl, hbytes]
  simp only [Option.map_some, Option.bind_some]
  rw [if_pos (by omega), hfree]
  exact ⟨_, _, rfl⟩

/-- The walk of `sendWindow` comes to its end. -/
theorem foldlM_sendAt_isSome {s : CBuffer} {clock : ℕ → Timespec}
    (hs : Window s) (hfree : FindsFree s clock) (n : ℕ) :
    ∃ sents s',
      (List.range n).foldlM (sendAt clock) ([], s) = some (sents, s') := by
  induction n with
  | zero => exact ⟨[], s, rfl⟩
  | succ n ih =>
      obtain ⟨sents, mid, hfold⟩ := ih
      have hmid := (foldlM_writings hs _ hfold).2
      rw [List.range_succ, List.foldlM_append, hfold, Option.bind_eq_bind,
        Option.bind_some]
      simp only [List.foldlM_cons, List.foldlM_nil, sendAt, Option.bind_eq_bind,
        Option.pure_def, Option.bind_fun_some]
      split
      · exact ⟨_, _, rfl⟩
      · rename_i current hcurrent
        split
        · exact ⟨_, _, rfl⟩
        · rename_i hack
          obtain ⟨slot, -, hslot⟩ := hfree n sents mid current hfold hcurrent hack
          obtain ⟨sent, s', hsend⟩ := sendNode_isSome (clock n) n hmid
            (List.mem_of_getElem? hcurrent) hslot
          rw [hsend]
          exact ⟨_, _, rfl⟩

/-! ## Runs with chunks of full size -/

theorem Matched.perm {s : CBuffer} {writes : List (ℕ × ℤ)}
    (hmatched : Matched s.packtimes writes (Underway s)) (hs : Window s) :
    ((s.packtimes.filter fun slot => slot.on = 1).map RttPack.bsn).Perm
        ((s.nodes.filter fun node => node.ack = 1).map PackNode.seqnum) ∧
      ((s.packtimes.filter fun slot => slot.on = 1).map RttPack.bsn).Nodup := by
  have hentries :
      ((s.packtimes.filter fun slot => slot.on = 1).map RttPack.bsn).Nodup := by
    rw [List.Nodup, List.pairwise_map, List.pairwise_filter,
      List.pairwise_iff_getElem]
    intro i j hi hj hlt _ hon
    rw [decide_eq_true_eq] at hon
    exact hmatched.first j _ (List.getElem?_eq_getElem hj) (by omega) i hlt _
      (List.getElem?_eq_getElem hi)
  have hpackets :
      ((s.nodes.filter fun node => node.ack = 1).map PackNode.seqnum).Nodup := by
    rw [List.Nodup, List.pairwise_map]
    exact (hs.pairwise.filter _).imp fun h => h.ne
  refine ⟨(List.perm_ext_iff_of_nodup hentries hpackets).2 fun num => ?_,
    hentries⟩
  have hunder : num ∈ (s.nodes.filter fun node => node.ack = 1).map
      PackNode.seqnum ↔ Underway s num := by
    simp [Underway, and_assoc]
  rw [hunder, hmatched.under_iff, List.mem_map]
  constructor
  · rintro ⟨slot, hslot, hbsn⟩
    rw [List.mem_filter, decide_eq_true_eq] at hslot
    obtain ⟨i, hi⟩ := List.getElem?_of_mem hslot.1
    exact ⟨i, slot, hi, by omega, hbsn⟩
  · rintro ⟨i, slot, hi, hon, hbsn⟩
    refine ⟨slot, ?_, hbsn⟩
    rw [List.mem_filter, decide_eq_true_eq]
    exact ⟨List.mem_of_getElem? hi, hmatched.on_eq i slot hi hon⟩

/-- The search for the entry of a packet under way finds the one that was
written when the packet was last sent. -/
theorem Matched.finds_newest {s : CBuffer} {writes : List (ℕ × ℤ)}
    (hmatched : Matched s.packtimes writes (Underway s)) {node : PackNode}
    (hnode : node ∈ s.nodes) (hack : node.ack = 1) :
    ∃ slot, s.packtimes.findIdx? (fun slot => slot.bsn = node.seqnum) =
      some slot ∧ Newest writes slot node.seqnum := by
  obtain ⟨i, slot, hslot, hon, hbsn⟩ :=
    (hmatched.under_iff node.seqnum).1 ⟨node, hnode, hack, rfl⟩
  obtain ⟨hi, hget⟩ := List.getElem?_eq_some_iff.1 hslot
  refine ⟨i, ?_, hbsn ▸ hmatched.newest i slot hslot hon⟩
  rw [List.findIdx?_eq_some_iff_getElem]
  refine ⟨hi, by simp [hget, hbsn], fun j hj => ?_⟩
  have hne := hmatched.first i slot hslot hon j hj _
    (List.getElem?_eq_getElem (by omega))
  rw [hbsn] at hne
  simpa using hne

/-- With chunks of full size the search never leaves the array. -/
theorem findsFree_reachable {h : History} (hreach : recorder.Reachable h)
    (hchunks : ∀ size ∈ h.chunks.dropLast, size = 1000)
    (clock : ℕ → Timespec) : FindsFree h.session.cbuffer clock := by
  have hs := window_reachable (session_reachable hreach)
  have hmatched := matched_reachable hreach
  have hcut := cut_reachable hreach hchunks
  intro i sents mid current hfold hcurrent hack
  obtain ⟨hwritings, hmid⟩ := foldlM_writings hs _ hfold
  obtain ⟨hshape, hlength⟩ := hwritings.kept
  exact (hmatched.writings hwritings).finds_free hmid
    ((full_congr hshape).2 hcut.full)
    (hlength.trans (slots_reachable hreach).length_eq)
    (List.mem_of_getElem? hcurrent) hack

/-- In every run in which all accepted chunks but the last have 1000 bytes, the
entries that are on and the packets under way match one to one, `recvACK` finds
the entry of the latest transmission, and `sendWindow` always finds a free
entry among the twenty.  The runs are those in which every acknowledgement has
an entry: `recvACK` has no result for one that has none. -/
theorem entries_match (h : History) (hreach : recorder.Reachable h)
    (hchunks : ∀ size ∈ h.chunks.dropLast, size = 1000) :
    (((h.session.cbuffer.packtimes.filter fun slot => slot.on = 1).map
        RttPack.bsn).Perm
      ((h.session.cbuffer.nodes.filter fun node => node.ack = 1).map
        PackNode.seqnum) ∧
      ((h.session.cbuffer.packtimes.filter fun slot => slot.on = 1).map
        RttPack.bsn).Nodup) ∧
    (∀ node ∈ h.session.cbuffer.nodes, node.ack = 1 →
      ∃ slot, h.session.cbuffer.packtimes.findIdx?
          (fun slot => slot.bsn = node.seqnum) = some slot ∧
        Newest h.writes slot node.seqnum) ∧
    ∀ clock, FindsFree h.session.cbuffer clock ∧
      ∃ sents s, h.session.cbuffer.sendWindow clock = some (sents, s) := by
  have hs := window_reachable (session_reachable hreach)
  have hmatched := matched_reachable hreach
  refine ⟨hmatched.perm hs, fun node hnode hack =>
    hmatched.finds_newest hnode hack, fun clock => ?_⟩
  have hfree := findsFree_reachable hreach hchunks clock
  exact ⟨hfree, foldlM_sendAt_isSome hs hfree _⟩

/-- One byte has been added, and its packet sent with the first entry. -/
def oneByteHistory : History where
  session := oneByteSent ⟨1, 1, ⟨0, 0⟩⟩ 1
    [{ bsn := 1, datagram := datagram 1 [7] }]
  writes := [(0, 1)]
  chunks := [1]

theorem oneByteHistory_reachable : recorder.Reachable oneByteHistory := by
  have hadded : recorder.Reachable
      { session := oneByteSent ⟨0, 0, ⟨0, 0⟩⟩ 0 [], writes := [], chunks := [1] } := by
    refine .step (l := .addData [7]) (.initial rfl)
      (History.call_eq_some.2 ⟨start_addData, rfl, ?_⟩)
    change [1] = [] ++ chunkTaken CBuffer.start (.addData [7])
    rw [chunkTaken_addData addData_oneByte]
    rfl
  exact hadded.step (l := .sendWindow fun _ => ⟨0, 0⟩)
    (History.call_eq_some.2 ⟨oneByteSent_sendWindow _ _ rfl, rfl, rfl⟩)

theorem entries_match_oneByte :
    (((oneByteHistory.session.cbuffer.packtimes.filter fun slot =>
        slot.on = 1).map RttPack.bsn).Perm
      ((oneByteHistory.session.cbuffer.nodes.filter fun node =>
        node.ack = 1).map PackNode.seqnum) ∧
      ((oneByteHistory.session.cbuffer.packtimes.filter fun slot =>
        slot.on = 1).map RttPack.bsn).Nodup) ∧
    (∀ node ∈ oneByteHistory.session.cbuffer.nodes, node.ack = 1 →
      ∃ slot, oneByteHistory.session.cbuffer.packtimes.findIdx?
          (fun slot => slot.bsn = node.seqnum) = some slot ∧
        Newest oneByteHistory.writes slot node.seqnum) ∧
    ∀ clock, FindsFree oneByteHistory.session.cbuffer clock ∧
      ∃ sents s, oneByteHistory.session.cbuffer.sendWindow clock =
        some (sents, s) :=
  entries_match oneByteHistory oneByteHistory_reachable
    (by simp [oneByteHistory])

end UdpTransfer.Sender
