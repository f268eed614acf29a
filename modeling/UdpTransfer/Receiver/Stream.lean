import UdpTransfer.Receiver.Session

/-!
# The delivered stream

What the live runs of the ring hold is the stream of payloads: the byte at
stream position `a` stands at circular position `a` of the buffer.  The bytes
handed out so far are the stream up to the first byte that the run at `head`
has left.  Both are kept by every call, except by a late packet: its number is
below `dstart`, it can land in a recycled hole, and then it is written wherever
that hole used to lie, possibly over bytes that are still to be delivered.
-/

namespace UdpTransfer.Receiver

open UdpTransfer.Memory
open UdpTransfer.Runs
open SBuffer

/-- The byte of the stream `P(1) ++ P(2) ++ ...` at position `a`. -/
def streamByte (payload : ℤ → Payload) (a : ℤ) : UInt8 :=
  ((payload (a / 1000 + 1)).toList[(a % 1000).toNat]?).getD 0

/-- `P(1) ++ ... ++ P(count)`. -/
def stream (payload : ℤ → Payload) (count : ℕ) : List UInt8 :=
  (List.range count).flatMap fun k : ℕ => (payload (k + 1)).toList

theorem stream_succ (payload : ℤ → Payload) (count : ℕ) :
    stream payload (count + 1) =
      stream payload count ++ (payload (count + 1)).toList := by
  simp [stream, List.range_succ]

theorem length_stream (payload : ℤ → Payload) (count : ℕ) :
    (stream payload count).length = 1000 * count := by
  induction count with
  | zero => rfl
  | succ count ih =>
      rw [stream_succ, List.length_append, ih, List.Vector.toList_length]
      omega

theorem streamByte_eq {payload : ℤ → Payload} {seqnum : ℤ} {i : ℕ}
    (hi : i < (payload seqnum).toList.length) :
    streamByte payload (1000 * (seqnum - 1) + i) = (payload seqnum).toList[i] := by
  rw [List.Vector.toList_length] at hi
  have hdiv : (1000 * (seqnum - 1) + i) / 1000 + 1 = seqnum := by omega
  have hmod : ((1000 * (seqnum - 1) + i) % 1000).toNat = i := by omega
  rw [streamByte, hdiv, hmod, List.getElem?_eq_getElem (by simp; omega),
    Option.getD_some]

theorem getElem_stream {payload : ℤ → Payload} {count i : ℕ}
    (hi : i < (stream payload count).length) :
    (stream payload count)[i] = streamByte payload i := by
  induction count with
  | zero => simp [stream] at hi
  | succ count ih =>
      simp only [stream_succ]
      by_cases hlt : i < (stream payload count).length
      · rw [List.getElem_append_left hlt, ih hlt]
      · rw [List.getElem_append_right (by omega), ← streamByte_eq]
        congr 1
        rw [length_stream] at hlt ⊢
        omega

/-- The bytes of the stream from position `a` on. -/
def streamFrom (payload : ℤ → Payload) (a : ℤ) (len : ℕ) : List UInt8 :=
  (List.range len).map fun i : ℕ => streamByte payload (a + i)

@[simp]
theorem length_streamFrom (payload : ℤ → Payload) (a : ℤ) (len : ℕ) :
    (streamFrom payload a len).length = len := by
  simp [streamFrom]

theorem streamFrom_append (payload : ℤ → Payload) (a : ℤ) (m n : ℕ) :
    streamFrom payload a m ++ streamFrom payload (a + m) n =
      streamFrom payload a (m + n) := by
  simp only [streamFrom, List.range_add, List.map_append, List.map_map]
  congr 1
  apply List.map_congr_left
  intro i _
  simp only [Function.comp_apply, Nat.cast_add, add_assoc]

theorem streamFrom_prefix (payload : ℤ → Payload) (len : ℕ) :
    streamFrom payload 0 len <+: stream payload len := by
  rw [List.prefix_iff_eq_take]
  apply List.ext_getElem
  · simp [streamFrom, length_stream]
    omega
  · intro i hleft hright
    rw [List.getElem_take, getElem_stream]
    simp [streamFrom]

/-! ## What the live runs hold -/

structure RunStored (payload : ℤ → Payload) (dstart : ℤ) (buffer : ℕ → UInt8)
    (run : Extent) : Prop where
  hole : run.filled = false →
    run.data ≡ 1000 * (run.firstSeq - 1) [ZMOD 64000]
  packed : run.filled = true →
    run.data + run.size ≡ 1000 * run.lastSeq [ZMOD 64000]
  whole : run.filled = true → run.firstSeq ≠ dstart →
    run.size = 1000 * (run.lastSeq - run.firstSeq + 1)
  bytes : run.filled = true → ∀ a, 1000 * run.lastSeq - run.size ≤ a →
    a < 1000 * run.lastSeq → circ 64000 buffer a = streamByte payload a

def Stored (payload : ℤ → Payload) (dstart : ℤ) (buffer : ℕ → UInt8)
    (runs : List Extent) : Prop :=
  ∀ run ∈ runs, dstart ≤ run.firstSeq → RunStored payload dstart buffer run

/-- The stream position of the first byte that has not been handed out. -/
def handedOut (dstart : ℤ) : List Extent → ℤ
  | [] => 1000 * (dstart - 1)
  | cur :: _ =>
      if cur.filled = true ∧ cur.firstSeq = dstart then
        1000 * cur.lastSeq - cur.size
      else
        1000 * (dstart - 1)

variable {payload : ℤ → Payload} {dstart : ℤ} {buffer : ℕ → UInt8}

theorem RunStored.follow {current next : Extent}
    (hcur : RunStored payload dstart buffer current)
    (hnext : RunStored payload dstart buffer next)
    (hfollow : followsOn current next = true)
    (hafter : next.firstSeq ≠ dstart) :
    RunStored payload dstart buffer (mergeFollowing current next) := by
  rw [followsOn_iff] at hfollow
  obtain ⟨hlast, hfilled⟩ := hfollow
  refine ⟨hcur.hole, fun h => ?_, fun h hstart => ?_, fun h a hlow hhigh => ?_⟩
  · have h1 := hcur.packed h
    have h2 := hnext.whole (hfilled ▸ h) hafter
    simp only [mergeFollowing, Int.ModEq] at h1 ⊢
    omega
  · have h1 := hcur.whole h hstart
    have h2 := hnext.whole (hfilled ▸ h) hafter
    simp only [mergeFollowing]
    omega
  · have h2 := hnext.whole (hfilled ▸ h) hafter
    simp only [mergeFollowing] at hlow hhigh
    rcases lt_or_ge a (1000 * current.lastSeq) with hlt | hge
    · exact hcur.bytes h a (by omega) hlt
    · exact hnext.bytes (hfilled ▸ h) a (by omega) hhigh

/-- Layout and contents, which merging keeps together. -/
structure Holding (payload : ℤ → Payload) (dstart : ℤ) (buffer : ℕ → UInt8)
    (position : ℤ) (runs : List Extent) : Prop where
  layout : Layout dstart runs
  stored : Stored payload dstart buffer runs
  handed : handedOut dstart runs = position

theorem Holding.mergeStep {position : ℤ} {left right : List Extent}
    (hstep : MergeStep dstart left right)
    (hholding : Holding payload dstart buffer position left) :
    Holding payload dstart buffer position right := by
  have hlayout := hholding.layout
  have hstored := hholding.stored
  have hhanded := hholding.handed
  refine ⟨hlayout.mergeStep hstep, ?_, ?_⟩
  · apply hstep.forall_run hstored
    · intro current hcurrent next hnext hfollow hlive
      rw [mergeFollowing_firstSeq] at hlive
      have hlast := (followsOn_iff.1 hfollow).1
      have hordered := (hlayout.run_ok current hcurrent).ordered
      exact (hstored current hcurrent hlive).follow
        (hstored next hnext (by omega)) hfollow (by omega)
    · intro current hcurrent next _ hspare hlive
      have hcur := hstored current hcurrent hlive
      have hhole := (sparesHoles_iff.1 hspare).1
      refine ⟨hcur.hole, ?_, ?_, ?_⟩ <;> simp [hhole]
  · rw [← hhanded]
    cases hstep with
    | following before after current next hfollow =>
        cases before with
        | cons first before => rfl
        | nil =>
            obtain ⟨hcur, hnext, hadj⟩ := hlayout.pair
            obtain ⟨hlast, hfilled⟩ := followsOn_iff.1 hfollow
            have hordered := hcur.ordered
            simp only [List.nil_append, handedOut]
            by_cases hready : current.filled = true ∧ current.firstSeq = dstart
            · have hmerged : (mergeFollowing current next).filled = true ∧
                  (mergeFollowing current next).firstSeq = dstart := hready
              have hsize := (hstored next (by simp) (by omega)).whole
                (hfilled ▸ hready.1) (by omega)
              rw [if_pos hready, if_pos hmerged]
              simp only [mergeFollowing]
              omega
            · have hmerged : ¬((mergeFollowing current next).filled = true ∧
                  (mergeFollowing current next).firstSeq = dstart) := hready
              rw [if_neg hready, if_neg hmerged]
    | spare before after current next hspare _ =>
        cases before with
        | cons first before => rfl
        | nil =>
            have hhole := (sparesHoles_iff.1 hspare).1
            simp [handedOut, hhole]

theorem Holding.mergeRuns {position : ℤ} {runs merged : List Extent}
    (hmerge : mergeRuns dstart runs = some merged)
    (hholding : Holding payload dstart buffer position runs) :
    Holding payload dstart buffer position merged :=
  mergeRuns_invariant (fun _ _ => Holding.mergeStep) hmerge hholding

/-! ## Storing a packet -/

theorem wrap_modEq (offset : ℤ) : wrap offset ≡ offset [ZMOD 64000] := by
  rw [wrap]
  split
  · exact Int.modEq_iff_dvd.2 ⟨1, by omega⟩
  · rfl

theorem Takes.data_modEq {cur : Extent} {seqnum : ℤ} {placed : Placement}
    (htakes : Takes cur seqnum 1000 placed) (hmax : seqnum < intMax)
    (hdata : cur.data ≡ 1000 * (cur.firstSeq - 1) [ZMOD 64000])
    (hexact : cur.lastSeq = intMax ∨
      cur.size = 1000 * (cur.lastSeq - cur.firstSeq + 1)) :
    placed.node.data ≡ 1000 * (seqnum - 1) [ZMOD 64000] := by
  cases htakes with
  | beginning hfirst hsize _ => rwa [← hfirst]
  | whole hfirst hsize => rwa [← hfirst]
  | middle hfirst hlast =>
      refine (wrap_modEq _).trans ?_
      simp only [holeBefore, Int.ModEq] at hdata ⊢
      omega
  | ending hfirst hlast =>
      refine (wrap_modEq _).trans ?_
      simp only [Int.ModEq] at hdata ⊢
      omega

/-- The packet itself, and what is left of a live hole, stand where the stream
wants them. -/
theorem stored_pieces {cur : Extent} {seqnum : ℤ} {placed : Placement}
    {buffer' : ℕ → UInt8} (hhole : cur.filled = false)
    (hdata : cur.data ≡ 1000 * (cur.firstSeq - 1) [ZMOD 64000])
    (hat : placed.node.data ≡ 1000 * (seqnum - 1) [ZMOD 64000])
    (htakes : Takes cur seqnum 1000 placed)
    (hwrite : CircWrite 64000 buffer buffer' placed.node.data
      (payload seqnum).toList) :
    Stored payload dstart buffer'
      (placed.front ++ placed.node :: placed.back) := by
  have hnode : RunStored payload dstart buffer' placed.node := by
    obtain ⟨hfirst, hlast, hsize, hfilled⟩ := htakes.node
    refine ⟨by simp [hfilled], fun _ => ?_, fun _ _ => by omega,
      fun _ a hlow hhigh => ?_⟩
    · simp only [Int.ModEq] at hat ⊢
      omega
    · have hi : (a - 1000 * (seqnum - 1)).toNat <
          (payload seqnum).toList.length := by
        rw [List.Vector.toList_length]
        omega
      have ha : 1000 * (seqnum - 1) + ((a - 1000 * (seqnum - 1)).toNat : ℤ) =
          a := by omega
      have hbyte := hwrite.inside _ hi
      rw [← streamByte_eq, ha] at hbyte
      rw [← hbyte]
      apply circ_congr
      calc a = 1000 * (seqnum - 1) + ((a - 1000 * (seqnum - 1)).toNat : ℤ) :=
            ha.symm
        _ ≡ _ [ZMOD 64000] := hat.symm.add_right _
  have hrest : ∀ run : Extent, run.filled = false →
      run.data ≡ 1000 * (run.firstSeq - 1) [ZMOD 64000] →
      RunStored payload dstart buffer' run := fun run hrun hplace =>
    ⟨fun _ => hplace, by simp [hrun], by simp [hrun], by simp [hrun]⟩
  intro run hrun _
  rw [List.mem_append, List.mem_cons] at hrun
  rcases hrun with hrun | rfl | hrun
  · cases htakes with
    | beginning hfirst hsize _ => simp at hrun
    | whole hfirst hsize => simp at hrun
    | middle hfirst hlast =>
        rw [List.mem_singleton] at hrun
        subst hrun
        exact hrest _ hhole hdata
    | ending hfirst hlast =>
        rw [List.mem_singleton] at hrun
        subst hrun
        exact hrest _ hhole hdata
  · exact hnode
  · cases htakes with
    | beginning hfirst hsize _ =>
        rw [List.mem_singleton] at hrun
        subst hrun
        refine hrest _ rfl ?_
        simp only [Int.ModEq] at hdata ⊢
        omega
    | whole hfirst hsize => simp at hrun
    | middle hfirst hlast =>
        rw [List.mem_singleton] at hrun
        subst hrun
        refine hrest _ rfl ((wrap_modEq _).trans ?_)
        simp only [holeBehind, Int.ModEq] at hat ⊢
        omega
    | ending hfirst hlast => simp at hrun

theorem RunStored.frame {run : Extent} {buffer' : ℕ → UInt8}
    (hstored : RunStored payload dstart buffer run)
    (hbytes : run.filled = true → ∀ a, 1000 * run.lastSeq - run.size ≤ a →
      a < 1000 * run.lastSeq →
      circ 64000 buffer' a = circ 64000 buffer a) :
    RunStored payload dstart buffer' run :=
  ⟨hstored.hole, hstored.packed, hstored.whole,
    fun hfilled a hlow hhigh => by
      rw [hbytes hfilled a hlow hhigh, hstored.bytes hfilled a hlow hhigh]⟩

/-- A packet that lands in a live hole meets no byte of another live run. -/
theorem frame_live {run : Extent} {seqnum : ℤ} {place : ℤ}
    {buffer' : ℕ → UInt8}
    (hwrite : CircWrite 64000 buffer buffer' place (payload seqnum).toList)
    (hat : place ≡ 1000 * (seqnum - 1) [ZMOD 64000])
    (hrun : RunOk dstart run) (hlive : dstart ≤ run.firstSeq)
    (hlow : dstart ≤ seqnum) (hwindow : seqnum ≤ dstart + 63)
    (hdisjoint : run.lastSeq < seqnum ∨ seqnum < run.firstSeq)
    (hfilled : run.filled = true) {a : ℤ}
    (ha : 1000 * run.lastSeq - run.size ≤ a) (ha' : a < 1000 * run.lastSeq) :
    circ 64000 buffer' a = circ 64000 buffer a := by
  have h1 := hrun.room
  have h2 := hrun.stored hfilled
  have h3 := hrun.window hfilled hlive
  apply hwrite.outside
  intro i hi hmod
  rw [List.Vector.toList_length] at hi
  have hmod := hmod.trans (hat.add_right _)
  simp only [Int.ModEq] at hmod
  omega

/-- A packet written where it is harmless changes no live run. -/
theorem frame_harmless {run : Extent} {place : ℤ}
    {buffer' : ℕ → UInt8} {data : List UInt8}
    (hwrite : CircWrite 64000 buffer buffer' place data)
    (hstored : RunStored payload dstart buffer run)
    (hharmless : ∀ j : ℤ, 0 ≤ j → j < run.size →
      ∀ (i : ℕ) (hi : i < data.length),
        place + i ≡ run.data + j [ZMOD 64000] →
        data[i] = circ 64000 buffer (run.data + j))
    (hfilled : run.filled = true) {a : ℤ}
    (ha : 1000 * run.lastSeq - run.size ≤ a) (ha' : a < 1000 * run.lastSeq) :
    circ 64000 buffer' a = circ 64000 buffer a := by
  have hpacked := hstored.packed hfilled
  have hj : run.data + (a - (1000 * run.lastSeq - run.size)) ≡ a
      [ZMOD 64000] := by
    simp only [Int.ModEq] at hpacked ⊢
    omega
  by_cases hmeets : ∃ i : ℕ, i < data.length ∧ a ≡ place + i [ZMOD 64000]
  · obtain ⟨i, hi, hmod⟩ := hmeets
    have hbyte := hharmless _ (by omega) (by omega) i hi
      (hmod.symm.trans hj.symm)
    rw [circ_congr hmod, hwrite.inside i hi, hbyte]
    exact circ_congr hj
  · push Not at hmeets
    exact hwrite.outside a hmeets

theorem Takes.lastSeq_le {cur : Extent} {seqnum : ℤ} {placed : Placement}
    (htakes : Takes cur seqnum 1000 placed) (hle : seqnum ≤ cur.lastSeq) :
    ∀ run ∈ placed.front ++ placed.node :: placed.back,
      run.lastSeq ≤ cur.lastSeq := by
  cases htakes with
  | beginning hfirst hsize _ => simp [hle]
  | whole hfirst hsize => simp [hle]
  | middle hfirst hlast =>
      simp only [List.cons_append, List.nil_append, List.forall_mem_cons,
        holeBefore, packetInside, holeBehind, List.not_mem_nil]
      exact ⟨by omega, hle, le_rfl, by simp⟩
  | ending hfirst hlast =>
      simp only [List.cons_append, List.nil_append, List.forall_mem_cons,
        List.not_mem_nil]
      exact ⟨by omega, hle, by simp⟩

theorem Holding.place {r : RingBuffer} {position seqnum : ℤ}
    {before after : List Extent} {cur : Extent} {placed : Placement}
    {buffer' : ℕ → UInt8}
    (hholding : Holding payload r.dstart r.buffer position r.runs)
    (hruns : r.runs = before ++ cur :: after)
    (hhole : cur.filled = false) (htakes : Takes cur seqnum 1000 placed)
    (hmax : seqnum < intMax) (hwindow : seqnum ≤ r.dstart + 63)
    (hwrite : CircWrite 64000 r.buffer buffer' placed.node.data
      (payload seqnum).toList)
    (hlate : seqnum < r.dstart →
      Harmless r placed.node (payload seqnum).toList) :
    Holding payload r.dstart buffer' position (refill before placed after) := by
  have hlayout := hholding.layout
  have hstored := hholding.stored
  have hhanded := hholding.handed
  rw [hruns] at hlayout hstored hhanded
  have hcur := hlayout.run_ok cur (by simp)
  have hbounds := htakes.bounds hcur
  refine ⟨hlayout.place hhole htakes hmax hwindow, ?_, ?_⟩
  · have hold : ∀ run ∈ before ++ after, r.dstart ≤ run.firstSeq →
        RunStored payload r.dstart buffer' run := by
      intro run hrun hlive
      have hmem : run ∈ before ++ cur :: after := by
        rw [List.mem_append] at hrun
        simp only [List.mem_append, List.mem_cons]
        tauto
      have hrunStored := hstored run hmem hlive
      refine hrunStored.frame fun hfilled a ha ha' => ?_
      rcases lt_or_ge seqnum r.dstart with hbelow | hlow
      · exact frame_harmless hwrite hrunStored
          (hlate hbelow run (hruns ▸ hmem) hfilled hlive)
          hfilled ha ha'
      · have hcurLive : r.dstart ≤ cur.firstSeq := by
          have := hcur.side
          omega
        have hdisjoint := hlayout.disjoint hcurLive hrun
        have hcurStored := hstored cur (by simp) hcurLive
        exact frame_live hwrite
          (htakes.data_modEq hmax (hcurStored.hole hhole)
            (hcur.exact hhole hcurLive))
          (hlayout.run_ok run hmem) hlive hlow hwindow (by omega) hfilled ha
          ha'
    have hpieces : ∀ run ∈ placed.front ++ placed.node :: placed.back,
        r.dstart ≤ run.firstSeq → RunStored payload r.dstart buffer' run := by
      intro run hrun hlive
      have hok := (hlayout.place hhole htakes hmax hwindow).run_ok run (by
        simp only [List.mem_append, List.mem_cons] at hrun
        simp only [refill, List.mem_append, List.mem_cons]
        tauto)
      have hle := htakes.lastSeq_le hbounds.2 run hrun
      have hcurLive : r.dstart ≤ cur.firstSeq := by
        have h1 := hok.ordered
        have h2 := hcur.side
        omega
      have hdata := (hstored cur (by simp) hcurLive).hole hhole
      have hat := htakes.data_modEq hmax hdata (hcur.exact hhole hcurLive)
      have hkept : Stored payload r.dstart buffer'
          (placed.front ++ placed.node :: placed.back) :=
        stored_pieces hhole hdata hat htakes hwrite
      exact hkept run hrun hlive
    rw [List.forall_mem_append] at hold
    exact forall_mem_refill.2 ⟨hold.1, hpieces, hold.2⟩
  · rw [← hhanded]
    cases before with
    | cons first before => rfl
    | nil =>
        obtain ⟨hfirst, hlast, hsize, hfilled⟩ := htakes.node
        have hcurHanded : handedOut r.dstart ([] ++ cur :: after) =
            1000 * (r.dstart - 1) := by
          simp [handedOut, hhole]
        rw [hcurHanded]
        have hnodeHanded : ∀ rest, handedOut r.dstart (placed.node :: rest) =
            1000 * (r.dstart - 1) := by
          intro rest
          rw [handedOut]
          split
          · omega
          · rfl
        cases htakes with
        | beginning hfirst hsize _ => exact hnodeHanded _
        | whole hfirst hsize => exact hnodeHanded _
        | middle hfirst hlast => simp [refill, handedOut, holeBefore, hhole]
        | ending hfirst hlast => simp [refill, handedOut, hhole]

/-! ## Delivering -/

theorem RunStored.read {run : Extent} {len : ℕ}
    (hstored : RunStored payload dstart buffer run)
    (hfilled : run.filled = true) (hlen : (len : ℤ) ≤ run.size) :
    circRead 64000 buffer run.data len =
      streamFrom payload (1000 * run.lastSeq - run.size) len := by
  have hpacked := hstored.packed hfilled
  apply List.map_congr_left
  intro i hi
  rw [List.mem_range] at hi
  rw [← hstored.bytes hfilled _ (by omega) (by omega)]
  apply circ_congr
  simp only [Int.ModEq] at hpacked ⊢
  omega

theorem Holding.deliver {position : ℤ} {cur : Extent} {rest : List Extent}
    (hholding : Holding payload dstart buffer position (cur :: rest))
    (hfilled : cur.filled = true) (hfirst : cur.firstSeq = dstart) :
    Holding payload (cur.lastSeq + 1) buffer (position + cur.size)
      (rest ++ [{ cur with filled := false }]) := by
  have hlayout := hholding.layout
  have hordered := (hlayout.run_ok cur (by simp)).ordered
  have hposition : position + cur.size = 1000 * cur.lastSeq := by
    rw [← hholding.handed, handedOut, if_pos ⟨hfilled, hfirst⟩]
    omega
  have hrest : ∀ run ∈ rest, cur.lastSeq + 1 ≤ run.firstSeq →
      RunStored payload dstart buffer run := fun run hrun hlive =>
    hholding.stored run (by simp [hrun]) (by omega)
  refine ⟨hlayout.deliver hfilled hfirst, ?_, ?_⟩
  · intro run hrun hlive
    rw [List.mem_append, List.mem_singleton] at hrun
    rcases hrun with hrun | rfl
    · have hrunStored := hrest run hrun hlive
      exact ⟨hrunStored.hole, hrunStored.packed,
        fun h _ => hrunStored.whole h (by omega), hrunStored.bytes⟩
    · simp only at hlive
      omega
  · rw [hposition]
    cases rest with
    | nil => simp [handedOut]
    | cons next rest =>
        rw [List.cons_append, handedOut]
        split
        · rename_i hready
          have hsize := (hrest next (by simp) (by omega)).whole hready.1
            (by omega)
          omega
        · omega

theorem Holding.consume {position count : ℤ} {cur : Extent}
    {rest : List Extent}
    (hholding : Holding payload dstart buffer position (cur :: rest))
    (hfilled : cur.filled = true) (hfirst : cur.firstSeq = dstart)
    (hcount : 0 ≤ count) :
    Holding payload dstart buffer (position + count)
      ({ cur with data := cur.data + count,
                  size := cur.size - count } :: rest) := by
  refine ⟨hholding.layout.consume hfilled hcount, ?_, ?_⟩
  · intro run hrun hlive
    rcases List.mem_cons.1 hrun with rfl | hrun
    · have hcur := hholding.stored cur (by simp) hlive
      refine ⟨by simp [hfilled], fun _ => ?_,
        fun _ hne => absurd hfirst hne, fun _ a ha ha' => ?_⟩
      · have hpacked := hcur.packed hfilled
        simp only [Int.ModEq] at hpacked ⊢
        omega
      · simp only at ha ha'
        exact hcur.bytes hfilled a (by omega) ha'
    · exact hholding.stored run (by simp [hrun]) hlive
  · rw [← hholding.handed, handedOut, handedOut, if_pos ⟨hfilled, hfirst⟩,
      if_pos ⟨hfilled, hfirst⟩]
    simp only
    omega

/-! ## Calls -/

/-- The condition on an arriving packet: its number is not the one that marks
an open end, unless it lies beyond the window, and if it is late and lands in a
recycled hole, it is written where it is harmless. -/
def ArrivesSafely (payload : ℤ → Payload) (r : RingBuffer) (seqnum : ℤ) :
    Prop :=
  OffSentinel r.dstart seqnum ∧ (seqnum < r.dstart → ∀ before placed after,
    seek r.dstart seqnum 1000 [] r.runs = some (.placed before placed after) →
    Harmless r placed.node (payload seqnum).toList)

/-- The ring holds the stream from where `out` ends. -/
structure Faithful (payload : ℤ → Payload) (r : RingBuffer)
    (out : List UInt8) : Prop where
  holding : Holding payload r.dstart r.buffer out.length r.runs
  out_eq : out = streamFrom payload 0 out.length

theorem faithful_initHead : Faithful payload RingBuffer.initHead [] := by
  refine ⟨⟨layout_initHead, ?_, rfl⟩, rfl⟩
  intro run hrun _
  simp only [RingBuffer.initHead, List.mem_singleton] at hrun
  subst hrun
  exact ⟨fun _ => rfl, by simp, by simp, by simp⟩

theorem Faithful.arrival {r r' : RingBuffer} {out : List UInt8}
    {seqnum result : ℤ} (hfaithful : Faithful payload r out)
    (hsafe : ArrivesSafely payload r seqnum)
    (harrival : Arrival r seqnum (payload seqnum).toList result r') :
    Faithful payload r' out := by
  obtain ⟨hholding, hout⟩ := hfaithful
  cases harrival with
  | duplicate _ => exact ⟨hholding, hout⟩
  | rejected _ => exact ⟨hholding, hout⟩
  | stored before after runs placed buffer' dend hseek hwrite hmerge =>
      rw [length_payload] at hseek
      obtain ⟨mid, cur, hfound, hruns, hhole, hwindow, htakes⟩ :=
        seek_placed hseek
      rw [List.nil_append] at hfound
      subst hfound
      have hcur := hholding.layout.run_ok cur (by simp [hruns])
      have hmax := hsafe.1.lt_intMax hcur htakes hwindow
      have hplaced := hholding.place hruns hhole htakes hmax hwindow hwrite
        fun hlate => hsafe.2 hlate before placed after hseek
      exact ⟨hplaced.mergeRuns hmerge, hout⟩

theorem Faithful.extend {r : RingBuffer} {out bytes : List UInt8} {n : ℕ}
    (hholding : Holding payload r.dstart r.buffer (out.length + n) r.runs)
    (hout : out = streamFrom payload 0 out.length)
    (hbytes : bytes = streamFrom payload out.length n) :
    Faithful payload r (out ++ bytes) := by
  have hlength : bytes.length = n := by
    rw [hbytes, length_streamFrom]
  rw [← hlength] at hholding
  refine ⟨by simpa using hholding, ?_⟩
  rw [List.length_append, hlength, ← streamFrom_append, ← hout, hbytes,
    zero_add]

theorem Faithful.delivery {r r' : RingBuffer} {out bytes : List UInt8}
    {size : ℤ} (hfaithful : Faithful payload r out)
    (hdelivery : Delivery r size bytes r') :
    Faithful payload r' (out ++ bytes) := by
  obtain ⟨hholding, hout⟩ := hfaithful
  cases hdelivery with
  | nothing => simpa using ⟨hholding, hout⟩
  | whole cur rest runs hruns hfilled hfirst hsize hmerge =>
      rw [hruns] at hholding
      have hcur := hholding.stored cur (by simp) hfirst.ge
      have hposition : 1000 * cur.lastSeq - cur.size = out.length := by
        rw [← hholding.handed, handedOut, if_pos ⟨hfilled, hfirst⟩]
      refine .extend (n := cur.size.toNat) ?_ hout ?_
      · have hdelivered := hholding.deliver hfilled hfirst
        rw [Int.toNat_of_nonneg hsize]
        exact hdelivered.mergeRuns hmerge
      · rw [hcur.read hfilled (Int.toNat_of_nonneg hsize).le, hposition]
  | part cur rest hruns hfilled hfirst hsize hlt =>
      rw [hruns] at hholding
      have hcur := hholding.stored cur (by simp) hfirst.ge
      have hposition : 1000 * cur.lastSeq - cur.size = out.length := by
        rw [← hholding.handed, handedOut, if_pos ⟨hfilled, hfirst⟩]
      refine .extend (n := size.toNat) ?_ hout ?_
      · rw [Int.toNat_of_nonneg hsize]
        exact hholding.consume hfilled hfirst hsize
      · rw [hcur.read hfilled (by omega), hposition]

/-! ## Sessions -/

/-- The condition on a call of a session. -/
def KeepsStream (payload : ℤ → Payload) (t : Session) : Call → Prop
  | .addData seqnum => ArrivesSafely payload t.sbuffer.toRing seqnum
  | .requestData _ => True

/-- As long as every packet arrives safely, what the receiver hands out is a
prefix of the stream. -/
theorem out_prefix_stream (payload : ℤ → Payload) (t : Session)
    (hreach : ((receiver payload).restrict (KeepsStream payload)).Reachable t) :
    ∃ count, t.out <+: stream payload count := by
  have hfaithful : Faithful payload t.sbuffer.toRing t.out := by
    refine session_invariant
      (I := fun t => Faithful payload t.sbuffer.toRing t.out) ?_ ?_ hreach
    · rw [show Session.start.sbuffer = initHead from rfl,
        initHead_represents.toRing_eq]
      exact faithful_initHead
    · intro t c t' hkeeps _ hcalled hfaithful
      cases hcalled with
      | addData seqnum result s harrival =>
          exact hfaithful.arrival hkeeps harrival
      | requestData size bytes s hdelivery =>
          exact hfaithful.delivery hdelivery
  refine ⟨t.out.length, ?_⟩
  rw [hfaithful.out_eq, length_streamFrom]
  exact streamFrom_prefix payload t.out.length

theorem out_prefix_stream_first :
    ∃ t, ((receiver numbered).restrict (KeepsStream numbered)).Reachable t ∧
      t.out.length = 1000 ∧ ∃ count, t.out <+: stream numbered count := by
  have hstart : Reaches numbered (KeepsStream numbered) RingBuffer.initHead
      [] [] := reaches_start
  have hsafe : ∀ t : Session, t.sbuffer.toRing = RingBuffer.initHead →
      KeepsStream numbered t (.addData 1) := by
    intro t ht
    rw [KeepsStream, ht]
    exact ⟨by decide, fun hlate => absurd hlate (by decide)⟩
  obtain ⟨buffer, dend, -, hstored⟩ := hstart.store 1 hsafe rfl (by decide) rfl
  obtain ⟨t, hreach, -, -, hout⟩ := hstored.deliver 1000
    (fun _ _ => trivial) rfl rfl rfl (by decide) (by decide) (by decide) rfl
  exact ⟨t, hreach, by simp [hout], out_prefix_stream numbered t hreach⟩

/-! ## A late packet that corrupts the stream

Packets 1, 2 and 3 are delivered one by one, and 2 and 3 arrive again: each is
put into the hole that its delivery left behind.  Packet 67 arrives early
between the two and is given the place of packet 3, which the second copy of 3
then overwrites. -/

theorem getElem_numbered {seqnum : ℤ} {i : ℕ}
    (hi : i < (numbered seqnum).toList.length) :
    (numbered seqnum).toList[i] = UInt8.ofNat seqnum.toNat :=
  List.getElem_replicate hi

/-- Packets `k + 1` to `67` have arrived, and what should be the first byte of
packet 67 is a byte of packet 3. -/
def Corrupted (k : ℤ) : Prop :=
  ∃ buffer dend acked out offset,
    Reaches numbered anyCall
      { buffer := buffer, dstart := 4, dend := dend,
        runs := [⟨4, k, 3000, 1000 * (k - 3), false⟩,
          ⟨k + 1, 67, offset, 1000 * (67 - k), true⟩,
          ⟨68, intMax, 3000, -2000, false⟩, ⟨2, 3, 1000, 2000, true⟩] }
      acked out ∧ out.length = 3000 ∧ circ 64000 buffer 2000 = 3

theorem corrupted_late : Corrupted 66 := by
  have h : Reaches numbered anyCall RingBuffer.initHead [] [] := reaches_start
  obtain ⟨_, _, -, h⟩ := h.store 1 (fun _ _ => trivial) rfl (by decide) rfl
  have h := h.deliver 1000 (fun _ _ => trivial) rfl rfl rfl (by decide)
    (by decide) (by decide) rfl
  obtain ⟨_, _, -, h⟩ := h.store 2 (fun _ _ => trivial) rfl (by decide) rfl
  have h := h.deliver 1000 (fun _ _ => trivial) rfl rfl rfl (by decide)
    (by decide) (by decide) rfl
  obtain ⟨_, _, -, h⟩ := h.store 2 (fun _ _ => trivial) rfl (by decide) rfl
  obtain ⟨_, _, -, h⟩ := h.store 3 (fun _ _ => trivial) rfl (by decide) rfl
  have h := h.deliver 1000 (fun _ _ => trivial) rfl rfl rfl (by decide)
    (by decide) (by decide) rfl
  obtain ⟨_, _, -, h⟩ := h.store 67 (fun _ _ => trivial) rfl (by decide) rfl
  obtain ⟨buffer, dend, hwrite, h⟩ :=
    h.store 3 (fun _ _ => trivial) rfl (by decide) rfl
  refine ⟨buffer, dend, _, _, 2000, h, by simp, ?_⟩
  have hbyte := hwrite.inside 0 (by simp)
  rw [getElem_numbered] at hbyte
  exact hbyte

theorem Corrupted.fill {k : ℤ} (hlow : 5 ≤ k) (hhigh : k ≤ 66)
    (hcorrupted : Corrupted k) : Corrupted (k - 1) := by
  obtain ⟨buffer, dend, acked, out, offset, h, hout, hbyte⟩ := hcorrupted
  have hseek : seek 4 k 1000 []
      [⟨4, k, 3000, 1000 * (k - 3), false⟩,
        ⟨k + 1, 67, offset, 1000 * (67 - k), true⟩,
        ⟨68, intMax, 3000, -2000, false⟩, ⟨2, 3, 1000, 2000, true⟩] =
      some (.placed []
        { front := [⟨4, k - 1, 3000, 1000 * (k - 3) - 1000, false⟩]
          node := ⟨k, k, wrap (3000 + 1000 * (k - 3) - 1000), 1000, true⟩
          back := [] }
        [⟨k + 1, 67, offset, 1000 * (67 - k), true⟩,
          ⟨68, intMax, 3000, -2000, false⟩, ⟨2, 3, 1000, 2000, true⟩]) := by
    have hfirst : (4 : ℤ) ≠ k := by omega
    have hwindow : k ≤ 67 := by omega
    have hinside : (4 : ℤ) < k := by omega
    simp [seek, signedInt, fillRun, hfirst, hwindow, hinside]
  have hplace : 0 ≤ wrap (3000 + 1000 * (k - 3) - 1000) ∧
      wrap (3000 + 1000 * (k - 3) - 1000) ≤ 64000 := by
    rw [wrap]
    split <;> omega
  have hmerge : mergeRuns 4
      [⟨4, k - 1, 3000, 1000 * (k - 3) - 1000, false⟩,
        ⟨k, k, wrap (3000 + 1000 * (k - 3) - 1000), 1000, true⟩,
        ⟨k + 1, 67, offset, 1000 * (67 - k), true⟩,
        ⟨68, intMax, 3000, -2000, false⟩, ⟨2, 3, 1000, 2000, true⟩] =
      some [⟨4, k - 1, 3000, 1000 * (k - 1 - 3), false⟩,
        ⟨k - 1 + 1, 67, wrap (3000 + 1000 * (k - 3) - 1000),
          1000 * (67 - (k - 1)), true⟩,
        ⟨68, intMax, 3000, -2000, false⟩, ⟨2, 3, 1000, 2000, true⟩] := by
    have hsize : 1000 * (k - 3) - 1000 = 1000 * (k - 1 - 3) := by omega
    have hsum : 1000 + 1000 * (67 - k) = 1000 * (67 - (k - 1)) := by omega
    simp [mergeRuns, walk, followsOn, sparesHoles, mergeFollowing, firstRun,
      hsize, hsum]
  obtain ⟨buffer', dend', hwrite, h⟩ :=
    h.store k (fun _ _ => trivial) hseek hplace hmerge
  refine ⟨buffer', dend', _, _, _, h, hout, ?_⟩
  rw [← hbyte]
  apply hwrite.outside
  intro i hi hmod
  rw [List.Vector.toList_length] at hi
  have hmod := hmod.trans ((wrap_modEq _).add_right _)
  simp only [Int.ModEq] at hmod
  omega

/-- Packet 67 is handed out with a byte of packet 3 in it. -/
theorem not_out_prefix_stream :
    ¬ ∀ (payload : ℤ → Payload) (t : Session),
      (receiver payload).Reachable t →
        ∃ count, t.out <+: stream payload count := by
  intro hclaim
  have hfill : ∀ n : ℕ, n ≤ 62 → Corrupted (66 - n) := by
    intro n
    induction n with
    | zero => exact fun _ => corrupted_late
    | succ n ih =>
        intro hn
        have := (ih (by omega)).fill (by omega) (by omega)
        rwa [show (66 - n - 1 : ℤ) = 66 - ((n + 1 : ℕ) : ℤ) by omega] at this
  obtain ⟨buffer, dend, acked, out, offset, h, hout, hbyte⟩ := hfill 62 le_rfl
  have h : Reaches numbered anyCall
      { buffer := buffer, dstart := 4, dend := dend,
        runs := [⟨4, 4, 3000, 1000, false⟩, ⟨5, 67, offset, 63000, true⟩,
          ⟨68, intMax, 3000, -2000, false⟩, ⟨2, 3, 1000, 2000, true⟩] }
      acked out := by simpa using h
  obtain ⟨buffer', dend', hwrite, h⟩ :=
    h.store 4 (fun _ _ => trivial) rfl (by decide) rfl
  have h : Reaches numbered anyCall
      { buffer := buffer', dstart := 4, dend := dend',
        runs := [⟨4, 67, 3000, 64000, true⟩,
          ⟨68, intMax, 3000, -2000, false⟩, ⟨2, 3, 1000, 2000, true⟩] }
      (4 :: acked) out := h
  have h := h.deliver 100000 (fun _ _ => trivial) rfl rfl rfl (by decide)
    (by decide) (by decide) rfl
  obtain ⟨t, hreach, -, -, htout⟩ := h
  obtain ⟨count, hfront⟩ := hclaim numbered t hreach.of_restrict
  have hbyte' : circ 64000 buffer' 2000 = 3 := by
    rw [← hbyte]
    apply hwrite.outside
    intro i hi hmod
    rw [List.Vector.toList_length] at hi
    simp only [Int.ModEq] at hmod
    omega
  have hlength : 66000 < t.out.length := by
    rw [htout, List.length_append, length_circRead, hout]
    decide
  have hgot : t.out[66000] = 3 := by
    simp only [htout]
    rw [List.getElem_append_right (by omega), getElem_circRead, ← hbyte']
    apply circ_congr
    simp only [hout]
    decide
  have hwant : t.out[66000] = 67 := by
    rw [hfront.getElem hlength, getElem_stream]
    rfl
  rw [hgot] at hwant
  exact absurd hwant (by decide)

end UdpTransfer.Receiver
