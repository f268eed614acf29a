import Mathlib.Data.List.TakeWhile
import UdpTransfer.Sender.CBuffer

/-!
# The window of the sender

Between calls the listed packets tile the first bytes of the buffer: they
follow on from one another, from `dstart` on, and cover what is stored, up to
20000 bytes.  `checkWindow` restores this after packets have been acknowledged
or bytes added, and does nothing else to a buffer; everything proved about the
sender rests on what is said of it here.
-/

namespace UdpTransfer.Sender

open UdpTransfer.Memory
open CBuffer

/-- The packets lie one behind the other from `data` to `data'` and are
numbered from `seq` up to `seq'`. -/
def Tiles : ℤ → ℤ → List PackNode → ℤ → ℤ → Prop
  | data, seq, [], data', seq' => data = data' ∧ seq = seq'
  | data, seq, node :: nodes, data', seq' =>
      node.data = data ∧ node.seqnum = seq ∧ 1 ≤ node.size ∧
        node.size ≤ 1000 ∧
        Tiles ((data + node.size) % 64000) (seq + 1) nodes data' seq'

def total (nodes : List PackNode) : ℤ := (nodes.map PackNode.size).sum

/-- The number of stored bytes, as `spaceLeft` infers it. -/
def usedOf (dstart dend isEmpty : ℤ) : ℤ :=
  if dend < dstart then 64000 - (dstart - dend)
  else if dstart < dend then dend - dstart
  else if isEmpty = 1 then 0
  else 64000

def used (s : CBuffer) : ℤ := usedOf s.dstart s.dend s.isEmpty

structure InBuffer (s : CBuffer) : Prop where
  dstart_nonneg : 0 ≤ s.dstart
  dstart_lt : s.dstart < 64000
  dend_nonneg : 0 ≤ s.dend
  dend_le : s.dend ≤ 64000

structure Window (s : CBuffer) : Prop extends InBuffer s where
  tiles : ∃ first, Tiles s.dstart first s.nodes
    ((s.dstart + total s.nodes) % 64000) s.packseq
  total_eq : total s.nodes = min (used s) 20000
  acks : ∀ node ∈ s.nodes, node.ack = 0 ∨ node.ack = 1 ∨ node.ack = 2
  head_ack : ∀ node ∈ s.nodes.head?, node.ack ≠ 2

@[simp]
theorem total_nil : total [] = 0 := rfl

@[simp]
theorem total_cons (node : PackNode) (nodes : List PackNode) :
    total (node :: nodes) = node.size + total nodes := by
  simp [total]

@[simp]
theorem total_append (left right : List PackNode) :
    total (left ++ right) = total left + total right := by
  simp [total]

theorem Window.tiled {s : CBuffer} (hs : Window s) :
    ∃ first data, Tiles s.dstart first s.nodes data s.packseq := by
  obtain ⟨first, htiles⟩ := hs.tiles
  exact ⟨first, _, htiles⟩

theorem cmod_of_nonneg {a : ℤ} (ha : 0 ≤ a) : cmod a = a % 64000 :=
  Int.tmod_eq_emod_of_nonneg ha

theorem tiles_append {left right : List PackNode} :
    ∀ {data seq data' seq' : ℤ},
      Tiles data seq (left ++ right) data' seq' ↔
        ∃ mid midSeq, Tiles data seq left mid midSeq ∧
          Tiles mid midSeq right data' seq' := by
  induction left with
  | nil => simp [Tiles]
  | cons node left ih =>
      intro data seq data' seq'
      simp only [List.cons_append, Tiles, ih]
      tauto

theorem Tiles.end_eq {nodes : List PackNode} :
    ∀ {data seq data' seq' : ℤ}, Tiles data seq nodes data' seq' →
      0 ≤ data → data < 64000 → data' = (data + total nodes) % 64000 := by
  induction nodes with
  | nil =>
      rintro data seq data' seq' ⟨rfl, rfl⟩ hlow hhigh
      simp only [total_nil]
      omega
  | cons node nodes ih =>
      rintro data seq data' seq' ⟨-, -, -, -, hrest⟩ _ _
      rw [ih hrest (by omega) (by omega), total_cons]
      omega

theorem Tiles.seq_eq {nodes : List PackNode} :
    ∀ {data seq data' seq' : ℤ}, Tiles data seq nodes data' seq' →
      seq' = seq + nodes.length := by
  induction nodes with
  | nil =>
      rintro data seq data' seq' ⟨-, rfl⟩
      simp
  | cons node nodes ih =>
      rintro data seq data' seq' ⟨-, -, -, -, hrest⟩
      rw [ih hrest, List.length_cons]
      push_cast
      omega

theorem Tiles.seqnum_bounds {nodes : List PackNode} :
    ∀ {data seq data' seq' : ℤ}, Tiles data seq nodes data' seq' →
      ∀ node ∈ nodes, seq ≤ node.seqnum ∧ node.seqnum < seq' := by
  induction nodes with
  | nil => simp
  | cons node nodes ih =>
      rintro data seq data' seq' ⟨-, hseqnum, -, -, hrest⟩ other hother
      have hend := hrest.seq_eq
      rcases List.mem_cons.1 hother with rfl | hother
      · omega
      · have := ih hrest other hother
        omega

theorem Tiles.pairwise {nodes : List PackNode} :
    ∀ {data seq data' seq' : ℤ}, Tiles data seq nodes data' seq' →
      nodes.Pairwise fun node other => node.seqnum < other.seqnum := by
  induction nodes with
  | nil => simp
  | cons node nodes ih =>
      rintro data seq data' seq' ⟨-, hseqnum, -, -, hrest⟩
      refine .cons (fun other hother => ?_) (ih hrest)
      have := hrest.seqnum_bounds other hother
      omega

theorem Tiles.size_bounds {nodes : List PackNode} :
    ∀ {data seq data' seq' : ℤ}, Tiles data seq nodes data' seq' →
      ∀ node ∈ nodes, 1 ≤ node.size ∧ node.size ≤ 1000 := by
  induction nodes with
  | nil => simp
  | cons node nodes ih =>
      rintro data seq data' seq' ⟨-, -, hlow, hhigh, hrest⟩
      rw [List.forall_mem_cons]
      exact ⟨⟨hlow, hhigh⟩, ih hrest⟩

theorem total_nonneg {nodes : List PackNode}
    (hsizes : ∀ node ∈ nodes, 1 ≤ node.size ∧ node.size ≤ 1000) :
    0 ≤ total nodes := by
  induction nodes with
  | nil => simp
  | cons node nodes ih =>
      rw [List.forall_mem_cons] at hsizes
      rw [total_cons]
      have := ih hsizes.2
      omega

theorem total_pos {nodes : List PackNode} (hne : nodes ≠ [])
    (hsizes : ∀ node ∈ nodes, 1 ≤ node.size ∧ node.size ≤ 1000) :
    0 < total nodes := by
  cases nodes with
  | nil => exact absurd rfl hne
  | cons node nodes =>
      rw [List.forall_mem_cons] at hsizes
      have := total_nonneg hsizes.2
      rw [total_cons]
      omega

/-- Where a listed packet lies, counted from the first byte. -/
theorem Tiles.offset {nodes : List PackNode} :
    ∀ {data seq data' seq' : ℤ}, Tiles data seq nodes data' seq' →
      ∀ node ∈ nodes, ∃ offset, 0 ≤ offset ∧
        offset + node.size ≤ total nodes ∧
        node.data ≡ data + offset [ZMOD 64000] := by
  induction nodes with
  | nil => simp
  | cons node nodes ih =>
      rintro data seq data' seq' ⟨hdata, -, hpos, -, hrest⟩ other hother
      rw [total_cons]
      rcases List.mem_cons.1 hother with rfl | hother
      · have := total_nonneg hrest.size_bounds
        refine ⟨0, le_rfl, by omega, ?_⟩
        rw [hdata, add_zero]
      · obtain ⟨offset, hlow, hhigh, hmod⟩ := ih hrest other hother
        refine ⟨node.size + offset, by omega, by omega, hmod.trans ?_⟩
        rw [← add_assoc]
        exact (Int.mod_modEq _ _).add_right _

theorem Tiles.getElem_seqnum {nodes : List PackNode} :
    ∀ {data seq data' seq' : ℤ}, Tiles data seq nodes data' seq' →
      ∀ (i : ℕ) (hi : i < nodes.length), nodes[i].seqnum = seq + i := by
  induction nodes with
  | nil => simp
  | cons node nodes ih =>
      rintro data seq data' seq' ⟨-, hseqnum, -, -, hrest⟩ i hi
      cases i with
      | zero => simpa using hseqnum
      | succ i =>
          rw [List.getElem_cons_succ, ih hrest]
          push_cast
          omega

theorem Tiles.isChain {nodes : List PackNode} :
    ∀ {data seq data' seq' : ℤ}, Tiles data seq nodes data' seq' →
      nodes.IsChain fun node next =>
        next.data = (node.data + node.size) % 64000 := by
  induction nodes with
  | nil => simp
  | cons node nodes ih =>
      rintro data seq data' seq' ⟨hdata, -, -, -, hrest⟩
      cases nodes with
      | nil => exact List.isChain_singleton _
      | cons next nodes =>
          rw [List.isChain_cons_cons]
          refine ⟨?_, ih hrest⟩
          rw [hrest.1, hdata]

/-! ## spaceLeft -/

theorem spaceLeft_eq (s : CBuffer) :
    s.spaceLeft = (64000 - used s,
      { s with isEmpty := if s.dstart = s.dend then s.isEmpty else 0 }) := by
  rw [used, usedOf, spaceLeft]
  split_ifs <;> first
    | rfl
    | omega
    | simp only [Prod.mk.injEq, and_true]; omega

theorem usedOf_touch (dstart dend isEmpty : ℤ) :
    usedOf dstart dend (if dstart = dend then isEmpty else 0) =
      usedOf dstart dend isEmpty := by
  rw [usedOf, usedOf]
  split_ifs <;> first | rfl | omega

theorem used_bounds {s : CBuffer} (hs : InBuffer s) :
    0 ≤ used s ∧ used s ≤ 64000 := by
  obtain ⟨h1, h2, h3, h4⟩ := hs
  rw [used, usedOf]
  split_ifs <;> omega

/-- The bytes stored lie between `dstart` and `dend`, going round. -/
theorem dend_modEq {s : CBuffer} (hs : InBuffer s) :
    s.dend ≡ s.dstart + used s [ZMOD 64000] := by
  obtain ⟨h1, h2, h3, h4⟩ := hs
  rw [used, usedOf, Int.ModEq]
  split_ifs <;> omega

theorem usedOf_nonneg {dstart dend isEmpty : ℤ} (hhigh : dstart < 64000)
    (hdend : 0 ≤ dend) : 0 ≤ usedOf dstart dend isEmpty := by
  rw [usedOf]
  split_ifs <;> omega

/-- Moving `dstart` over some, but not all, of the stored bytes. -/
theorem usedOf_advance {dstart dend isEmpty isEmpty' count : ℤ}
    (hlow : 0 ≤ dstart) (hhigh : dstart < 64000) (hdend : 0 ≤ dend)
    (hdend' : dend ≤ 64000) (hpos : 0 < count)
    (hcount : count < usedOf dstart dend isEmpty) :
    usedOf ((dstart + count) % 64000) dend isEmpty' =
      usedOf dstart dend isEmpty - count := by
  rw [usedOf] at hcount
  rw [usedOf, usedOf]
  split_ifs at hcount ⊢ <;> omega

/-- Moving `dstart` over all stored bytes leaves the buffer empty, unless
`dend` stands at the very end. -/
theorem usedOf_drain {dstart dend isEmpty count : ℤ}
    (hlow : 0 ≤ dstart) (hhigh : dstart < 64000) (hdend : 0 ≤ dend)
    (hdend' : dend ≤ 64000) (hpos : 0 < count) (hlt : count < 64000)
    (hcount : count = usedOf dstart dend isEmpty) :
    usedOf ((dstart + count) % 64000) dend 1 = if dend = 64000 then 64000
      else 0 := by
  rw [usedOf] at hcount
  rw [usedOf]
  split_ifs at hcount ⊢ <;> omega

/-! ## Freeing -/

/-- The packet has been acknowledged. -/
def acked (node : PackNode) : Bool := node.ack = 2

theorem freeAcked_eq (nodes : List PackNode) : ∀ s : CBuffer,
    s.freeAcked nodes =
      (nodes.takeWhile acked,
        { s with
          nodes := nodes.dropWhile acked
          dstart := (nodes.takeWhile acked).foldl
            (fun dstart node => cmod (dstart + node.size)) s.dstart
          isEmpty := if nodes ≠ [] ∧ nodes.dropWhile acked = [] then 1
            else s.isEmpty }) := by
  induction nodes with
  | nil => intro s; rfl
  | cons current rest ih =>
      intro s
      rw [freeAcked]
      by_cases hacked : current.ack = 2
      · have hcurrent : acked current = true := by simp [acked, hacked]
        rw [if_pos hacked, ih]
        simp only [List.takeWhile_cons_of_pos hcurrent,
          List.dropWhile_cons_of_pos hcurrent, List.foldl_cons]
        cases rest with
        | nil => simp
        | cons next rest => simp
      · have hcurrent : acked current = false := by simp [acked, hacked]
        rw [if_neg hacked]
        simp [hcurrent]

theorem foldl_cmod {nodes : List PackNode} :
    ∀ {dstart : ℤ}, 0 ≤ dstart → dstart < 64000 →
      (∀ node ∈ nodes, 1 ≤ node.size ∧ node.size ≤ 1000) →
      nodes.foldl (fun dstart node => cmod (dstart + node.size)) dstart =
        (dstart + total nodes) % 64000 := by
  induction nodes with
  | nil =>
      intro dstart hlow hhigh _
      simp only [List.foldl_nil, total_nil]
      omega
  | cons node nodes ih =>
      intro dstart hlow hhigh hsizes
      rw [List.forall_mem_cons] at hsizes
      rw [List.foldl_cons, cmod_of_nonneg (by omega),
        ih (by omega) (by omega) hsizes.2, total_cons]
      omega

/-! ## checkWindow -/

theorem disttowindow_eq {dstart count : ℤ} (hlow : 0 ≤ dstart)
    (hhigh : dstart < 64000) (hcount : 0 ≤ count) :
    disttowindow dstart
        (if count ≥ 20000 then cmod (dstart + 20000)
          else cmod (count + dstart)) = min count 20000 := by
  split
  · rw [cmod_of_nonneg (by omega), disttowindow]
    split_ifs <;> omega
  · rw [cmod_of_nonneg (by omega), disttowindow]
    split_ifs <;> omega

theorem newPackNodes_tiles {data packseq dist : ℤ} :
    ∀ {new : List PackNode} {packseq' : ℤ}, 0 ≤ data → data < 64000 →
      newPackNodes data packseq dist = some (new, packseq') →
      Tiles data packseq new ((data + total new) % 64000) packseq' ∧
        total new = max dist 0 ∧ (∀ node ∈ new, node.ack = 0) ∧
        (packseq ≤ 2147483647 → packseq' ≤ 2147483647) := by
  induction data, packseq, dist using newPackNodes.induct with
  | case1 data packseq dist hpos mini =>
      rename_i ih
      intro new packseq' hlow hhigh hnew
      have hmini : 1 ≤ mini ∧ mini ≤ 1000 ∧ mini ≤ dist := by
        simp only [mini]
        omega
      rw [newPackNodes, if_pos hpos, Option.bind_eq_some_iff] at hnew
      obtain ⟨succ, hsucc, hrest⟩ := hnew
      rw [Option.map_eq_some_iff] at hrest
      obtain ⟨⟨nodes, packseq''⟩, hnodes, heq⟩ := hrest
      cases heq
      obtain ⟨rfl, -, hsucc⟩ := signedInt_eq_some.1 hsucc
      change newPackNodes (cmod (data + mini)) (packseq + 1) (dist - mini) =
        some (nodes, packseq') at hnodes
      change Tiles data packseq (⟨packseq, data, mini, 0⟩ :: nodes)
          ((data + total (⟨packseq, data, mini, 0⟩ :: nodes)) % 64000)
          packseq' ∧
        total (⟨packseq, data, mini, 0⟩ :: nodes) = max dist 0 ∧
          (∀ node ∈ (⟨packseq, data, mini, 0⟩ : PackNode) :: nodes,
            node.ack = 0) ∧
          (packseq ≤ 2147483647 → packseq' ≤ 2147483647)
      clear_value mini
      rw [cmod_of_nonneg (by omega)] at hnodes ih
      obtain ⟨htiles, htotal, hack, hbound⟩ :=
        ih _ (by omega) (by omega) hnodes
      have hend : (data + (mini + total nodes)) % 64000 =
          ((data + mini) % 64000 + total nodes) % 64000 := by omega
      refine ⟨⟨rfl, rfl, hmini.1, hmini.2.1, ?_⟩, ?_, ?_, fun _ => hbound hsucc⟩
      · rw [total_cons]
        simp only
        rw [hend]
        exact htiles
      · rw [total_cons, htotal]
        simp only
        omega
      · rw [List.forall_mem_cons]
        exact ⟨rfl, hack⟩
  | case2 data packseq dist hpos =>
      intro new packseq' hlow hhigh hnew
      rw [newPackNodes, if_neg hpos] at hnew
      cases hnew
      refine ⟨⟨?_, rfl⟩, ?_, by simp, fun hbound => hbound⟩
      · simp only [total_nil]
        omega
      · simp only [total_nil]
        omega

/-- All new packets but the last have full size. -/
theorem newPackNodes_sizes {data packseq dist : ℤ} :
    ∀ {new : List PackNode} {packseq' : ℤ},
      newPackNodes data packseq dist = some (new, packseq') →
      ∀ node ∈ new.dropLast, node.size = 1000 := by
  induction data, packseq, dist using newPackNodes.induct with
  | case1 data packseq dist hpos mini =>
      rename_i ih
      intro new packseq' hnew
      rw [newPackNodes, if_pos hpos, Option.bind_eq_some_iff] at hnew
      obtain ⟨succ, -, hrest⟩ := hnew
      rw [Option.map_eq_some_iff] at hrest
      obtain ⟨⟨nodes, packseq''⟩, hnodes, heq⟩ := hrest
      cases heq
      cases nodes with
      | nil => simp
      | cons next nodes =>
          rw [List.dropLast_cons_of_ne_nil (by simp), List.forall_mem_cons]
          refine ⟨?_, ih _ hnodes⟩
          by_contra hsize
          -- a packet of less than full size takes in what was left
          have hrest : dist - min 1000 dist ≤ 0 := by
            simp only at hsize
            omega
          rw [newPackNodes, if_neg (by omega)] at hnodes
          cases hnodes
  | case2 data packseq dist hpos =>
      intro new packseq' hnew
      rw [newPackNodes, if_neg hpos] at hnew
      cases hnew
      simp

theorem nextData_eq {s : CBuffer} {first data packseq : ℤ} (hs : InBuffer s)
    (htiles : Tiles s.dstart first s.nodes data packseq) :
    s.nextData = data := by
  have hlow := hs.dstart_nonneg
  have hhigh := hs.dstart_lt
  rw [nextData]
  rcases List.eq_nil_or_concat s.nodes with hnil | ⟨front, last, hconcat⟩
  · rw [hnil] at htiles ⊢
    exact htiles.1
  · rw [List.concat_eq_append] at hconcat
    rw [hconcat] at htiles ⊢
    rw [List.getLast?_concat]
    obtain ⟨mid, midSeq, hfront, hlast⟩ := tiles_append.1 htiles
    obtain ⟨rfl, -, hpos, -, hend, -⟩ := hlast
    have hmid := hfront.end_eq hlow hhigh
    simp only
    rw [cmod_of_nonneg (by omega), hend]

/-- What `fillWindow` does to a buffer whose packets tile its first bytes. -/
structure Filled (s : CBuffer) (new : List PackNode) (s' : CBuffer) :
    Prop where
  nodes_eq : s'.nodes = s.nodes ++ new
  new_tiles : Tiles ((s.dstart + total s.nodes) % 64000) s.packseq new
    ((s.dstart + total s.nodes + total new) % 64000) s'.packseq
  new_ack : ∀ node ∈ new, node.ack = 0
  packseq_le : s.packseq ≤ 2147483647 → s'.packseq ≤ 2147483647
  dstart_eq : s'.dstart = s.dstart
  dend_eq : s'.dend = s.dend
  cirbuffer_eq : s'.cirbuffer = s.cirbuffer
  packtimes_eq : s'.packtimes = s.packtimes
  used_eq : used s' = used s
  total_eq : total s'.nodes = min (used s) 20000
  new_sizes : ∀ node ∈ new.dropLast, node.size = 1000

theorem fillWindow_filled {s s' : CBuffer} (hfill : s.fillWindow = some s')
    (hs : InBuffer s) (htiles : ∃ first, Tiles s.dstart first s.nodes
      ((s.dstart + total s.nodes) % 64000) s.packseq)
    (htotal : total s.nodes ≤ min (used s) 20000) :
    ∃ new, Filled s new s' := by
  obtain ⟨first, htiles⟩ := htiles
  have hused := used_bounds hs
  have htouch : ∀ nodes windowend packseq,
      used { s with
        nodes := nodes
        windowend := windowend
        packseq := packseq
        isEmpty := if s.dstart = s.dend then s.isEmpty else 0 } = used s :=
    fun _ _ _ => usedOf_touch s.dstart s.dend s.isEmpty
  have hnext : nextData
      { s with isEmpty := if s.dstart = s.dend then s.isEmpty else 0 } =
      (s.dstart + total s.nodes) % 64000 :=
    nextData_eq ⟨hs.dstart_nonneg, hs.dstart_lt, hs.dend_nonneg, hs.dend_le⟩
      htiles
  rw [fillWindow, spaceLeft_eq] at hfill
  dsimp only at hfill
  rw [hnext, sub_sub_cancel,
    disttowindow_eq hs.dstart_nonneg hs.dstart_lt hused.1] at hfill
  split at hfill
  · rw [Option.map_eq_some_iff] at hfill
    obtain ⟨⟨new, packseq⟩, hnew, rfl⟩ := hfill
    obtain ⟨hnewTiles, hnewTotal, hack, hbound⟩ :=
      newPackNodes_tiles (by omega) (by omega) hnew
    have hend : ((s.dstart + total s.nodes) % 64000 + total new) % 64000 =
        (s.dstart + total s.nodes + total new) % 64000 := by omega
    rw [hend] at hnewTiles
    refine ⟨new, rfl, hnewTiles, hack, hbound, rfl, rfl, rfl, rfl,
      htouch _ _ _, ?_, newPackNodes_sizes hnew⟩
    rw [total_append, hnewTotal, ← total]
    omega
  · rename_i hzero
    cases hfill
    have hnodes := total_nonneg htiles.size_bounds
    refine ⟨[], by simp, ⟨by simp, rfl⟩, by simp, fun hbound => hbound, rfl,
      rfl, rfl, rfl, htouch _ _ _, ?_, by simp⟩
    simp only
    omega

/-- What `checkWindow` does to a buffer whose packets tile its first bytes: it
frees packets in front and lists new ones behind. -/
structure Rewindowed (s : CBuffer) (freed kept new : List PackNode)
    (s' : CBuffer) : Prop where
  nodes_eq : s.nodes = freed ++ kept
  nodes_eq' : s'.nodes = kept ++ new
  freed_acked : ∀ node ∈ freed, node.ack = 2
  kept_head : ∀ node ∈ kept.head?, node.ack ≠ 2
  new_tiles : Tiles ((s.dstart + total s.nodes) % 64000) s.packseq new
    ((s.dstart + total s.nodes + total new) % 64000) s'.packseq
  new_ack : ∀ node ∈ new, node.ack = 0
  packseq_le : s.packseq ≤ 2147483647 → s'.packseq ≤ 2147483647
  dstart_eq : s'.dstart = (s.dstart + total freed) % 64000
  dend_eq : s'.dend = s.dend
  cirbuffer_eq : s'.cirbuffer = s.cirbuffer
  packtimes_eq : s'.packtimes = s.packtimes
  used_eq : used s' = usedOf s'.dstart s.dend
    (if s.nodes ≠ [] ∧ kept = [] then 1 else s.isEmpty)
  total_eq : total s'.nodes = min (used s') 20000
  new_sizes : ∀ node ∈ new.dropLast, node.size = 1000

/-- The packets in front of the window are freed without harm to the rest. -/
theorem freed_window {s : CBuffer} {freed kept : List PackNode}
    (hs : InBuffer s) (hnodes : s.nodes = freed ++ kept)
    (htiles : ∃ first, Tiles s.dstart first s.nodes
      ((s.dstart + total s.nodes) % 64000) s.packseq)
    (htotal : total s.nodes ≤ min (used s) 20000) :
    (∃ first, Tiles ((s.dstart + total freed) % 64000) first kept
      ((s.dstart + total s.nodes) % 64000) s.packseq) ∧
    total kept ≤ min (usedOf ((s.dstart + total freed) % 64000) s.dend
      (if s.nodes ≠ [] ∧ kept = [] then 1 else s.isEmpty)) 20000 := by
  obtain ⟨first, htiles⟩ := htiles
  have hsizes := htiles.size_bounds
  have hlow := hs.dstart_nonneg
  have hhigh := hs.dstart_lt
  rw [hnodes] at htiles hsizes
  obtain ⟨mid, midSeq, hfreedTiles, hkeptTiles⟩ := tiles_append.1 htiles
  obtain rfl := hfreedTiles.end_eq hlow hhigh
  rw [hnodes]
  refine ⟨⟨midSeq, hkeptTiles⟩, ?_⟩
  have hfreed : 0 ≤ total freed := total_nonneg fun node hnode =>
    hsizes node (by simp [hnode])
  rw [hnodes, total_append] at htotal
  by_cases hkept : kept = []
  · have hnonneg : 0 ≤ usedOf ((s.dstart + total freed) % 64000) s.dend
        (if freed ++ kept ≠ [] ∧ kept = [] then 1 else s.isEmpty) :=
      usedOf_nonneg (by omega) hs.dend_nonneg
    rw [hkept] at hnonneg ⊢
    rw [total_nil]
    omega
  · have hpos : 0 < total kept := total_pos hkept fun node hnode =>
      hsizes node (by simp [hnode])
    simp only [hkept, and_false, if_false]
    rcases eq_or_lt_of_le hfreed with hzero | hcount
    · rw [← hzero, add_zero, Int.emod_eq_of_lt hlow hhigh]
      change total kept ≤ min (used s) 20000
      omega
    · have hadvance : usedOf ((s.dstart + total freed) % 64000) s.dend
          s.isEmpty = used s - total freed :=
        usedOf_advance hlow hhigh hs.dend_nonneg hs.dend_le hcount
          (by rw [← used]; omega)
      rw [hadvance]
      omega

theorem checkWindow_rewindowed {s s' : CBuffer} {freed : List PackNode}
    (hs : InBuffer s) (htiles : ∃ first, Tiles s.dstart first s.nodes
      ((s.dstart + total s.nodes) % 64000) s.packseq)
    (htotal : total s.nodes ≤ min (used s) 20000)
    (hcheck : s.checkWindow = some (freed, s')) :
    ∃ kept new, Rewindowed s freed kept new s' := by
  have hnodes := (List.takeWhile_append_dropWhile
    (p := acked) (l := s.nodes)).symm
  have hfreed : ∀ node ∈ s.nodes.takeWhile acked, node.ack = 2 :=
    fun node hnode => by simpa [acked] using List.mem_takeWhile_imp hnode
  have hkept : ∀ node ∈ (s.nodes.dropWhile acked).head?, node.ack ≠ 2 := by
    intro node hnode
    have := List.head?_dropWhile_not acked s.nodes
    rw [Option.mem_def.1 hnode] at this
    simpa [acked] using this
  rw [checkWindow, freeAcked_eq] at hcheck
  revert hnodes hfreed hkept hcheck
  generalize s.nodes.takeWhile acked = front
  generalize s.nodes.dropWhile acked = kept
  intro hcheck hnodes hfreed hkept
  have hwindow := freed_window hs hnodes htiles htotal
  have hsizes : ∀ node ∈ front, 1 ≤ node.size ∧ node.size ≤ 1000 := by
    obtain ⟨first, htiles⟩ := htiles
    exact fun node hnode => htiles.size_bounds node (by simp [hnodes, hnode])
  rw [foldl_cmod hs.dstart_nonneg hs.dstart_lt hsizes] at hcheck
  dsimp only at hcheck
  rw [Option.map_eq_some_iff] at hcheck
  obtain ⟨filled, hfill, heq⟩ := hcheck
  cases heq
  have hend : ((s.dstart + total freed) % 64000 + total kept) % 64000 =
      (s.dstart + total s.nodes) % 64000 := by
    rw [hnodes, total_append]
    omega
  obtain ⟨new, hnew⟩ := fillWindow_filled hfill
    ⟨by simp only; omega, by simp only; omega, hs.dend_nonneg, hs.dend_le⟩
    (by simpa only [hend] using hwindow.1) hwindow.2
  have hnewTiles := hnew.new_tiles
  simp only [hend] at hnewTiles
  refine ⟨kept, new, hnodes, hnew.nodes_eq, hfreed, hkept, ?_, hnew.new_ack,
    hnew.packseq_le, hnew.dstart_eq, hnew.dend_eq, hnew.cirbuffer_eq,
    hnew.packtimes_eq, ?_,
    ?_, hnew.new_sizes⟩
  · have hlast : ((s.dstart + total freed) % 64000 + total kept + total new) %
        64000 = (s.dstart + total s.nodes + total new) % 64000 := by
      rw [hnodes, total_append]
      omega
    rwa [hlast] at hnewTiles
  · rw [hnew.used_eq, hnew.dstart_eq]
    rfl
  · rw [hnew.total_eq, hnew.used_eq]

theorem Rewindowed.window {s s' : CBuffer} {freed kept new : List PackNode}
    (hrewind : Rewindowed s freed kept new s') (hs : InBuffer s)
    (htiles : ∃ first, Tiles s.dstart first s.nodes
      ((s.dstart + total s.nodes) % 64000) s.packseq)
    (htotal : total s.nodes ≤ min (used s) 20000)
    (hacks : ∀ node ∈ s.nodes, node.ack = 0 ∨ node.ack = 1 ∨ node.ack = 2) :
    Window s' := by
  have hdstart := hrewind.dstart_eq
  obtain ⟨first, hkept⟩ := (freed_window hs hrewind.nodes_eq htiles htotal).1
  have hend : (s.dstart + total s.nodes + total new) % 64000 =
      (s'.dstart + total s'.nodes) % 64000 := by
    rw [hdstart, hrewind.nodes_eq', hrewind.nodes_eq, total_append,
      total_append]
    omega
  refine
    { dstart_nonneg := by omega
      dstart_lt := by omega
      dend_nonneg := by rw [hrewind.dend_eq]; exact hs.dend_nonneg
      dend_le := by rw [hrewind.dend_eq]; exact hs.dend_le
      tiles := ⟨first, ?_⟩
      total_eq := hrewind.total_eq
      acks := ?_
      head_ack := ?_ }
  · rw [hrewind.nodes_eq', tiles_append, ← hrewind.nodes_eq', ← hend]
    exact ⟨_, _, hdstart ▸ hkept, hrewind.new_tiles⟩
  · intro node hnode
    rw [hrewind.nodes_eq', List.mem_append] at hnode
    rcases hnode with hnode | hnode
    · exact hacks node (by simp [hrewind.nodes_eq, hnode])
    · exact .inl (hrewind.new_ack node hnode)
  · intro node hnode
    rw [hrewind.nodes_eq', List.head?_append] at hnode
    cases hhead : kept.head? with
    | none =>
        rw [hhead, Option.none_or] at hnode
        rw [hrewind.new_ack node (List.mem_of_mem_head? hnode)]
        decide
    | some first =>
        rw [hhead, Option.some_or, Option.mem_some_iff] at hnode
        subst hnode
        exact hrewind.kept_head first hhead

theorem window_start : Window CBuffer.start :=
  { dstart_nonneg := by decide
    dstart_lt := by decide
    dend_nonneg := by decide
    dend_le := by decide
    tiles := ⟨1, by decide, rfl⟩
    total_eq := by decide
    acks := by simp [CBuffer.start]
    head_ack := by simp [CBuffer.start] }

end UdpTransfer.Sender
