import UdpTransfer.Sender.Correspondence

/-!
# Accounting for chunks

`addData` takes a chunk exactly when `spaceLeft` finds room for it, stores it
behind the bytes that are there and leaves so much less room.  The count fails
in one case: a chunk of no bytes, added to an empty buffer, clears `isEmpty`,
and the empty buffer passes for a full one.
-/

namespace UdpTransfer.Sender

open UdpTransfer.Memory
open UdpTransfer.Runs
open CBuffer

/-- What `addData` does with a chunk, in terms of `spaceLeft`. -/
structure Accounted (s : CBuffer) (chunk : List UInt8) : Prop where
  accepted : (chunk.length : ℤ) ≤ s.spaceLeft.1 →
    ∃ freed s', s.addData chunk chunk.length = some (1, freed, s') ∧
      s'.spaceLeft.1 = s.spaceLeft.1 - chunk.length ∧
      circRead 64000 s'.cirbuffer (s.dstart + (64000 - s.spaceLeft.1))
        chunk.length = chunk ∧
      circRead 64000 s'.cirbuffer s.dstart (64000 - s.spaceLeft.1).toNat =
        circRead 64000 s.cirbuffer s.dstart (64000 - s.spaceLeft.1).toNat
  rejected : s.spaceLeft.1 < chunk.length →
    ∃ freed s', s.addData chunk chunk.length = some (0, freed, s') ∧
      s'.cirbuffer = s.cirbuffer ∧ s'.dstart = s.dstart ∧ s'.dend = s.dend ∧
      s'.nodes = s.nodes ∧ s'.spaceLeft.1 = s.spaceLeft.1

/-- How many packets come into the window when `size` bytes are stored. -/
def packetsFor (s : CBuffer) (size : ℤ) : ℤ :=
  (min (64000 - s.spaceLeft.1 + size) 20000 - min (64000 - s.spaceLeft.1) 20000 +
    999) / 1000

/-- The chunk is not an empty one for an empty buffer, and there are numbers for
the packets that it brings into the window. -/
structure Countable (s : CBuffer) (chunk : List UInt8) : Prop where
  not_empty : chunk = [] → s.spaceLeft.1 ≠ 64000
  numbers : s.packseq + packetsFor s chunk.length ≤ 2147483647

theorem fst_spaceLeft (s : CBuffer) : s.spaceLeft.1 = 64000 - used s := by
  rw [spaceLeft_eq]

/-! ## The call returns -/

/-- A chunk for which there is room is stored. -/
theorem store_isSome {s : CBuffer} {data : List UInt8} (hs : InBuffer s)
    (hroom : (data.length : ℤ) ≤ 64000 - used s) :
    ∃ mid, s.spaceLeft.2.store data data.length = some mid := by
  obtain ⟨h1, h2, h3, h4⟩ := hs
  rw [used, usedOf] at hroom
  rw [spaceLeft_eq, CBuffer.store]
  dsimp only
  split
  · obtain ⟨mem, hcopy⟩ := @memcpyIn_isSome _ 64000 s.cirbuffer s.dend 0
      data.length data (by omega) (by omega)
    rw [hcopy]
    exact ⟨_, rfl⟩
  · obtain ⟨mem, hfirst⟩ := @memcpyIn_isSome _ 64000 s.cirbuffer s.dend 0
      (64000 - s.dend) data (by omega) (by omega)
    obtain ⟨mem', hsecond⟩ := @memcpyIn_isSome _ 64000 mem 0 (64000 - s.dend)
      (data.length - (64000 - s.dend)) data
      (by split_ifs at hroom <;> omega) (by omega)
    rw [hfirst, Option.bind_some, hsecond]
    exact ⟨_, rfl⟩

/-- Where no packet in front is acknowledged, `checkWindow` only fills the
window. -/
theorem checkWindow_of_head {s : CBuffer}
    (hhead : ∀ node ∈ s.nodes.head?, node.ack ≠ 2) :
    s.checkWindow = s.fillWindow.map fun s' => ([], s') := by
  have hkept : s.nodes.takeWhile acked = [] ∧ s.nodes.dropWhile acked = s.nodes
      := by
    cases hnodes : s.nodes with
    | nil => exact ⟨rfl, rfl⟩
    | cons node nodes =>
        have hnot : acked node = false := by
          simpa [acked] using hhead node (by simp [hnodes])
        simp [hnot]
  rw [checkWindow, freeAcked_eq, hkept.1, hkept.2, if_neg (by tauto)]
  rfl

/-- Storing a chunk adds its length to what is stored, unless both are 0. -/
theorem Stored.used_add_length {s mid : CBuffer} {data : List UInt8}
    (hstored : Stored s data mid) (hs : InBuffer s)
    (hempty : data = [] → used s ≠ 0) : used mid = used s + data.length := by
  by_cases hdata : data = []
  · have hlow := used_bounds hs
    have hhigh := used_bounds hstored.inBuffer
    have hle := hstored.used_le
    have hne := hempty hdata
    have hmod : s.dstart + used mid ≡ s.dstart + used s [ZMOD 64000] := by
      rw [← hstored.dstart_eq]
      refine (dend_modEq hstored.inBuffer).symm.trans
        (hstored.dend_mod.trans ?_)
      rw [hdata, List.length_nil, Nat.cast_zero, add_zero, hstored.dstart_eq]
      exact dend_modEq hs
    obtain ⟨k, hk⟩ := Int.modEq_iff_dvd.1 hmod
    rw [hdata, List.length_nil]
    omega
  · exact hstored.used_add hdata

/-- After a chunk has been stored, the buffer does not pass for empty. -/
theorem Stored.used_pos {s mid : CBuffer} {data : List UInt8}
    (hstored : Stored s data mid) : 0 < used mid := by
  obtain ⟨h1, h2, h3, h4⟩ := hstored.inBuffer
  rw [used, usedOf, hstored.isEmpty_eq]
  split_ifs <;> omega

theorem addData_isSome {s : CBuffer} {data : List UInt8} (hs : Window s)
    (hlow : 0 ≤ s.packseq) (hsize : data.length ≤ 1000)
    (hhigh : s.packseq ≤ 2147483647) (hcount : Countable s data) :
    ∃ result freed s', s.addData data data.length = some (result, freed, s') := by
  have hempty := hcount.not_empty
  have hnumbers := hcount.numbers
  rw [packetsFor] at hnumbers
  rw [fst_spaceLeft] at hempty hnumbers
  have hbounds := used_bounds hs.toInBuffer
  have htotal := hs.total_eq
  rw [CBuffer.addData, spaceLeft_eq]
  dsimp only
  rw [abs_of_nonneg (by omega)]
  split
  · rename_i hroom
    obtain ⟨mid, hstore⟩ := store_isSome hs.toInBuffer hroom
    have hstored := store_stored hs.toInBuffer hroom hstore
    have hused := hstored.used_add_length hs.toInBuffer (by
      intro hdata
      have := hempty hdata
      omega)
    rw [spaceLeft_eq] at hstore
    rw [hstore, Option.bind_some]
    generalize ({ mid with isEmpty := 0 } : CBuffer) = filled at hstored hused ⊢
    have hpackseq := hstored.packseq_eq
    have hnodes := hstored.nodes_eq
    rw [checkWindow_of_head (hnodes ▸ hs.head_ack), Option.map_map]
    obtain ⟨s', hfill⟩ := Option.isSome_iff_exists.1
      (fillWindow_isSome hstored.inBuffer (hpackseq ▸ hlow) (by
        rw [hpackseq, hused, hnodes]
        omega))
    rw [hfill]
    exact ⟨_, _, _, rfl⟩
  · have htouched := touched_spaceLeft s
    rw [spaceLeft_eq] at htouched
    have hwindow := htouched.window hs
    rw [checkWindow_of_head hwindow.head_ack, Option.map_map]
    have hfull := hwindow.total_eq
    obtain ⟨s', hfill⟩ := Option.isSome_iff_exists.1
      (fillWindow_isSome hwindow.toInBuffer hlow (by
        simp only at hfull ⊢
        omega))
    rw [hfill]
    exact ⟨_, _, _, rfl⟩

/-! ## What the call accounts for -/

/-- The chunk is read behind the bytes that were there, and those are as
before. -/
theorem Stored.reads {s mid : CBuffer} {data : List UInt8}
    (hstored : Stored s data mid) (hs : InBuffer s) :
    circRead 64000 mid.cirbuffer (s.dstart + used s) data.length = data ∧
      circRead 64000 mid.cirbuffer s.dstart (used s).toNat =
        circRead 64000 s.cirbuffer s.dstart (used s).toNat := by
  have hend := dend_modEq hs
  have hroom := hstored.room
  have hbounds := used_bounds hs
  constructor
  · apply List.ext_getElem (length_circRead _ _ _ _)
    intro i hi hi'
    rw [getElem_circRead, ← hstored.write.inside i hi']
    exact circ_congr (hend.symm.add_right _)
  · apply circRead_congr
    intro i hi
    apply hstored.write.outside
    intro j hj hclash
    obtain ⟨k, hk⟩ := Int.modEq_iff_dvd.1 (hclash.trans (hend.add_right _))
    omega

/-- Packets that all have full size but for the last are as many as their bytes
need. -/
theorem length_of_total {new : List PackNode}
    (hsizes : ∀ node ∈ new, 1 ≤ node.size ∧ node.size ≤ 1000)
    (hfront : ∀ node ∈ new.dropLast, node.size = 1000) :
    (new.length : ℤ) = (total new + 999) / 1000 := by
  have hfull : Full new := @full_append [] new (by simp) hfront
  rcases hfull.total_cases hsizes with hall | hbounds
  · rw [total_of_full hall]
    omega
  · omega

/-- An accepted chunk comes with so many packets, and these have numbers. -/
theorem Added.countable {s s' : CBuffer} {data : List UInt8}
    (hadded : Added s data 1 s') (hs : Window s)
    (hhigh : s.packseq ≤ 2147483647)
    (hempty : data = [] → s.spaceLeft.1 ≠ 64000) : Countable s data := by
  have hwindow := hs.total_eq
  refine ⟨hempty, ?_⟩
  rw [fst_spaceLeft] at hempty
  cases hadded with
  | accepted mid s' new hstored hrewind =>
      have hused := hstored.used_add_length hs.toInBuffer (by
        intro hdata
        have := hempty hdata
        omega)
      have hbound := hrewind.packseq_le (hstored.packseq_eq.trans_le hhigh)
      have hseq := hrewind.new_tiles.seq_eq
      have hlength := length_of_total hrewind.new_tiles.size_bounds
        hrewind.new_sizes
      have htotal := hrewind.total_eq
      have hkeep := hrewind
      rw [← hstored.nodes_eq] at hkeep
      rw [(hkeep.keep hstored.inBuffer).2, hused, hrewind.nodes_eq',
        total_append] at htotal
      rw [hstored.packseq_eq] at hseq
      rw [packetsFor, fst_spaceLeft]
      omega

theorem Countable.accounted {s : CBuffer} {chunk : List UInt8} (hs : Window s)
    (hlow : 0 ≤ s.packseq) (hhigh : s.packseq ≤ 2147483647)
    (hsize : chunk.length ≤ 1000) (hcount : Countable s chunk) :
    Accounted s chunk := by
  obtain ⟨result, freed, s', hadd⟩ :=
    addData_isSome hs hlow hsize hhigh hcount
  obtain ⟨-, hadded, -⟩ := addData_added hs hadd
  have hempty := hcount.not_empty
  have hspace := fst_spaceLeft s
  have hused : 64000 - s.spaceLeft.1 = used s := by omega
  cases hadded with
  | accepted mid s' new hstored hrewind =>
      have hroom := hstored.room
      refine ⟨fun _ => ⟨freed, s', hadd, ?_⟩, fun hfull => by omega⟩
      have hadds := hstored.used_add_length hs.toInBuffer (by
        intro hdata
        have := hempty hdata
        omega)
      have hkeep := hrewind
      rw [← hstored.nodes_eq] at hkeep
      rw [hused, hrewind.cirbuffer_eq, fst_spaceLeft,
        (hkeep.keep hstored.inBuffer).2]
      exact ⟨by omega, hstored.reads hs.toInBuffer⟩
  | rejected mid s' hroom hmid hrewind =>
      refine ⟨fun hfits => by omega, fun _ => ⟨freed, s', hadd, ?_⟩⟩
      have htouched := touched_spaceLeft s
      rw [← hmid] at htouched
      have hnodes := hrewind.nodes_eq'
      rw [List.append_nil] at hnodes
      rw [← htouched.nodes_eq] at hrewind
      have hkeep := hrewind.keep (htouched.window hs).toInBuffer
      refine ⟨?_, ?_, ?_, hnodes, ?_⟩
      · rw [hrewind.cirbuffer_eq, htouched.cirbuffer_eq]
      · rw [hkeep.1, htouched.dstart_eq]
      · rw [hrewind.dend_eq, htouched.dend_eq]
      · rw [fst_spaceLeft, fst_spaceLeft, hkeep.2, htouched.used_eq]

theorem Accounted.countable {s : CBuffer} {chunk : List UInt8} (hs : Window s)
    (hhigh : s.packseq ≤ 2147483647) (hsize : chunk.length ≤ 1000)
    (haccounted : Accounted s chunk) : Countable s chunk := by
  have hspace := fst_spaceLeft s
  have hbounds := used_bounds hs.toInBuffer
  rcases le_or_gt (chunk.length : ℤ) s.spaceLeft.1 with hfits | hfull
  · obtain ⟨freed, s', hadd, hless, -⟩ := haccounted.accepted hfits
    obtain ⟨-, hadded, -⟩ := addData_added hs hadd
    refine hadded.countable hs hhigh ?_
    -- an empty buffer would pass for a full one
    rintro rfl hempty
    cases hadded with
    | accepted mid s' new hstored hrewind =>
        have hpos := hstored.used_pos
        rw [← hstored.nodes_eq] at hrewind
        rw [fst_spaceLeft, (hrewind.keep hstored.inBuffer).2, hempty,
          List.length_nil] at hless
        omega
  · refine ⟨?_, ?_⟩
    · rintro rfl
      rw [List.length_nil] at hfull
      omega
    · rw [packetsFor]
      omega

/-- `addData` accounts for the chunk in every session, unless an empty chunk
comes to an empty buffer or the packet numbers run out. -/
theorem accounted_iff (t : Session) (hreach : sender.Reachable t)
    (chunk : List UInt8) (hsize : chunk.length ≤ 1000) :
    Accounted t.cbuffer chunk ↔ Countable t.cbuffer chunk := by
  have hs := window_reachable hreach
  have hrec := recorded_reachable hreach.restrict_true
  have hcount := hrec.count
  have hhigh := hrec.packseq_le
  constructor
  · exact Accounted.countable hs hhigh hsize
  · exact Countable.accounted hs (by omega) hhigh hsize

theorem accounted_oneByte : Accounted oneByte.cbuffer [8] :=
  (accounted_iff oneByte oneByte_reachable [8] (by decide)).2
    ⟨by decide, by decide⟩

/-- After an empty chunk the fresh buffer has no room. -/
theorem not_accounted :
    ¬ ∀ t, sender.Reachable t → ∀ chunk : List UInt8, chunk.length ≤ 1000 →
      Accounted t.cbuffer chunk := by
  intro hall
  have haccounted := hall Session.start (.initial rfl) [] (by decide)
  have hcount := haccounted.countable window_start (by decide) (by decide)
  exact hcount.not_empty rfl rfl

end UdpTransfer.Sender
