import Mathlib.Data.Finset.Dedup
import Mathlib.Data.Finset.Lattice.Lemmas
import Mathlib.Data.List.SplitBy
import Mathlib.Data.Nat.Find
import UdpTransfer.Receiver.Acceptance
import UdpTransfer.Receiver.Stream

/-!
# Reassembly

Until the first read, the ring is a function of the set of packets that have
arrived: its runs cut the numbers 1 to 64 into maximal blocks of arrived and of
missing packets.  Every packet is put where this function wants it, and the
merge that follows joins exactly the neighbours of one kind.  The reads then
hand out the leading block piece by piece.
-/

namespace UdpTransfer.Receiver

open UdpTransfer.Memory
open UdpTransfer.Runs
open SBuffer

/-- The `count` numbers from `first` on. -/
def span (first : ℤ) (count : ℕ) : List ℤ :=
  (List.range count).map fun k : ℕ => first + k

/-- The run that a block of numbers of one kind forms. -/
def runOf (received : Finset ℤ) (block : List ℤ) : Extent where
  firstSeq := block.headD 0
  lastSeq := block.getLastD 0
  data := (block.headD 0 - 1) * 1000
  size := 1000 * (block.getLastD 0 - block.headD 0 + 1)
  filled := decide (block.headD 0 ∈ received)

/-- The ring that a set of arrived packets determines. -/
def arrangement (received : Finset ℤ) : List Extent :=
  ((span 1 64).splitBy fun a b => decide (a ∈ received ↔ b ∈ received)).map
    (runOf received)

/-- The length of the longest block `1..k` of arrived packets. -/
def prefixLength (received : Finset ℤ) : ℕ :=
  Nat.findGreatest (fun k => ∀ i < k, (i : ℤ) + 1 ∈ received) 64

/-- The answers to requests made one after the other. -/
def requests (s : SBuffer) : List ℤ → Option (List (ℤ × List UInt8))
  | [] => some []
  | size :: sizes =>
      (s.requestData size).bind fun (count, bytes, s) =>
        (requests s sizes).map fun answers => (count, bytes) :: answers

/-- The consecutive pieces of `bytes` that requests of these sizes take, each
with its length. -/
def pieces (bytes : List UInt8) : List ℤ → List (ℤ × List UInt8)
  | [] => []
  | size :: sizes =>
      (((bytes.take size.toNat).length : ℤ), bytes.take size.toNat) ::
        pieces (bytes.drop size.toNat) sizes

/-! ## Tiles -/

/-- A run that lies where it belongs and whose numbers are all of its kind. -/
structure Tile (received : Finset ℤ) (run : Extent) : Prop where
  ordered : run.firstSeq ≤ run.lastSeq
  data_eq : run.data = (run.firstSeq - 1) * 1000
  size_eq : run.size = 1000 * (run.lastSeq - run.firstSeq + 1)
  kind : ∀ seqnum, run.firstSeq ≤ seqnum → seqnum ≤ run.lastSeq →
    (seqnum ∈ received ↔ run.filled = true)

/-- The runs cut the numbers from `first` up to `stop` into tiles. -/
def Tiles (received : Finset ℤ) (first stop : ℤ) : List Extent → Prop
  | [] => first = stop
  | run :: rest =>
      run.firstSeq = first ∧ Tile received run ∧
        Tiles received (run.lastSeq + 1) stop rest

section Tiles

variable {received : Finset ℤ} {first stop : ℤ}

theorem tiles_append {left right : List Extent} :
    Tiles received first stop (left ++ right) ↔
      ∃ mid, Tiles received first mid left ∧ Tiles received mid stop right := by
  induction left generalizing first with
  | nil => simp [Tiles]
  | cons run left ih =>
      simp only [List.cons_append, Tiles, ih]
      constructor
      · rintro ⟨hfirst, htile, mid, hleft, hright⟩
        exact ⟨mid, ⟨hfirst, htile, hleft⟩, hright⟩
      · rintro ⟨mid, ⟨hfirst, htile, hleft⟩, hright⟩
        exact ⟨hfirst, htile, mid, hleft, hright⟩

theorem Tiles.le {runs : List Extent} (htiles : Tiles received first stop runs) :
    first ≤ stop := by
  induction runs generalizing first with
  | nil => exact le_of_eq htiles
  | cons run rest ih =>
      obtain ⟨hfirst, htile, hrest⟩ := htiles
      have hle := ih hrest
      have hordered := htile.ordered
      omega

theorem Tiles.mem {runs : List Extent} (htiles : Tiles received first stop runs)
    {run : Extent} (hrun : run ∈ runs) :
    Tile received run ∧ first ≤ run.firstSeq ∧ run.lastSeq < stop := by
  induction runs generalizing first with
  | nil => cases hrun
  | cons next rest ih =>
      obtain ⟨hfirst, htile, hrest⟩ := htiles
      have hordered := htile.ordered
      rcases List.mem_cons.1 hrun with rfl | hmem
      · have hle := hrest.le
        exact ⟨htile, by omega, by omega⟩
      · obtain ⟨htile', hlow, hhigh⟩ := ih hrest hmem
        exact ⟨htile', by omega, hhigh⟩

/-- Every number lies in some tile. -/
theorem Tiles.exists_mem {runs : List Extent}
    (htiles : Tiles received first stop runs) {seqnum : ℤ}
    (hlow : first ≤ seqnum) (hhigh : seqnum < stop) :
    ∃ run ∈ runs, run.firstSeq ≤ seqnum ∧ seqnum ≤ run.lastSeq := by
  induction runs generalizing first with
  | nil =>
      simp only [Tiles] at htiles
      omega
  | cons run rest ih =>
      obtain ⟨hfirst, -, hrest⟩ := htiles
      by_cases hle : seqnum ≤ run.lastSeq
      · exact ⟨run, by simp, by omega, hle⟩
      · obtain ⟨other, hother, hrange⟩ := ih hrest (by omega)
        exact ⟨other, by simp [hother], hrange⟩

theorem Tile.add {run : Extent} {seqnum : ℤ} (htile : Tile received run)
    (hapart : seqnum < run.firstSeq ∨ run.lastSeq < seqnum) :
    Tile (insert seqnum received) run := by
  refine ⟨htile.ordered, htile.data_eq, htile.size_eq, ?_⟩
  intro other hlow hhigh
  rw [Finset.mem_insert, or_iff_right (by omega)]
  exact htile.kind other hlow hhigh

/-- A packet leaves the tiles as they are that do not contain it. -/
theorem Tiles.add {runs : List Extent} {seqnum : ℤ}
    (htiles : Tiles received first stop runs)
    (hapart : seqnum < first ∨ stop ≤ seqnum) :
    Tiles (insert seqnum received) first stop runs := by
  induction runs generalizing first with
  | nil => exact htiles
  | cons run rest ih =>
      obtain ⟨hfirst, htile, hrest⟩ := htiles
      have hordered := htile.ordered
      have hle := hrest.le
      exact ⟨hfirst, htile.add (by omega), ih hrest (by omega)⟩

theorem Tiles.isChain {runs : List Extent}
    (htiles : Tiles received first stop runs) :
    runs.IsChain fun run next => next.firstSeq = run.lastSeq + 1 := by
  induction runs generalizing first with
  | nil => exact .nil
  | cons run rest ih =>
      obtain ⟨-, -, hrest⟩ := htiles
      cases rest with
      | nil => exact List.isChain_singleton _
      | cons next rest =>
          rw [List.isChain_cons_cons]
          exact ⟨hrest.1, ih hrest⟩

/-! ## Merging -/

theorem Tile.join {current next : Extent} (hcur : Tile received current)
    (hnext : Tile received next) (hfollow : followsOn current next = true) :
    Tile received (mergeFollowing current next) := by
  obtain ⟨hlast, hkinds⟩ := followsOn_iff.1 hfollow
  have hordered := hcur.ordered
  have hordered' := hnext.ordered
  refine ⟨?_, hcur.data_eq, ?_, ?_⟩
  · simp only [mergeFollowing_firstSeq, mergeFollowing_lastSeq]
    omega
  · have hsize := hcur.size_eq
    have hsize' := hnext.size_eq
    simp only [mergeFollowing]
    omega
  · intro seqnum hlow hhigh
    simp only [mergeFollowing_firstSeq, mergeFollowing_lastSeq,
      mergeFollowing_filled] at hlow hhigh ⊢
    by_cases hle : seqnum ≤ current.lastSeq
    · exact hcur.kind seqnum hlow hle
    · rw [hkinds]
      exact hnext.kind seqnum (by omega) hhigh

/-- Neighbouring holes follow on, so that only the first merge rule applies. -/
theorem Tiles.mergeStep {dstart : ℤ} {left right : List Extent}
    (hmax : stop ≤ intMax) (hstep : MergeStep dstart left right)
    (htiles : Tiles received first stop left) :
    Tiles received first stop right := by
  cases hstep with
  | following before after current next hfollow =>
      rw [tiles_append] at htiles ⊢
      obtain ⟨mid, hbefore, hfirst, hcur, -, hnext, hafter⟩ := htiles
      exact ⟨mid, hbefore, hfirst, hcur.join hnext hfollow, hafter⟩
  | spare before after current next hspare hnot =>
      rw [tiles_append] at htiles
      obtain ⟨mid, hbefore, hfirst, hcur, hstart, hnext, hafter⟩ := htiles
      obtain ⟨hhole, hhole', -, -⟩ := sparesHoles_iff.1 hspare
      have hle := hafter.le
      have hordered := hnext.ordered
      rcases hnot with hfollow | hopen
      · rw [Bool.eq_false_iff, ne_eq, followsOn_iff] at hfollow
        exact absurd ⟨by omega, by rw [hhole, hhole']⟩ hfollow
      · omega

theorem Tiles.mergeRuns {dstart : ℤ} {runs merged : List Extent}
    (hmerge : mergeRuns dstart runs = some merged) (hmax : stop ≤ intMax)
    (htiles : Tiles received first stop runs) :
    Tiles received first stop merged :=
  mergeRuns_invariant (fun _ _ => Tiles.mergeStep hmax) hmerge htiles

/-! ## Placing a packet -/

/-- The tiles that a hole and the packet put into it make. -/
theorem Tile.place {cur : Extent} {seqnum : ℤ} {placed : Placement}
    (htile : Tile received cur) (hhole : cur.filled = false)
    (hlow : 1 ≤ cur.firstSeq) (hhigh : cur.lastSeq ≤ 64)
    (htakes : Takes cur seqnum 1000 placed) :
    Tiles (insert seqnum received) cur.firstSeq (cur.lastSeq + 1)
      (placed.front ++ placed.node :: placed.back) := by
  have hordered := htile.ordered
  have hdata := htile.data_eq
  have hsize := htile.size_eq
  have hnode : ∀ node : Extent, node.firstSeq = seqnum →
      node.lastSeq = seqnum → node.data = (seqnum - 1) * 1000 →
      node.size = 1000 → node.filled = true →
      Tile (insert seqnum received) node := by
    intro node hfirst hlast hplace hlength hfilled
    refine ⟨by omega, by rw [hplace, hfirst], by omega, ?_⟩
    intro other hother hother'
    obtain rfl : other = seqnum := by omega
    simp [hfilled]
  have hrest : ∀ rest : Extent, cur.firstSeq ≤ rest.firstSeq →
      rest.firstSeq ≤ rest.lastSeq → rest.lastSeq ≤ cur.lastSeq →
      (seqnum < rest.firstSeq ∨ rest.lastSeq < seqnum) →
      rest.data = (rest.firstSeq - 1) * 1000 →
      rest.size = 1000 * (rest.lastSeq - rest.firstSeq + 1) →
      rest.filled = false → Tile (insert seqnum received) rest := by
    intro rest hlow hsome hhigh hapart hplace hlength hempty
    refine Tile.add ⟨hsome, hplace, hlength, ?_⟩ hapart
    intro other hother hother'
    rw [hempty, ← hhole]
    exact htile.kind other (by omega) (by omega)
  cases htakes with
  | beginning hfirst hroom _ =>
      refine ⟨rfl, hnode _ hfirst rfl (by rw [← hfirst, hdata]) rfl rfl, rfl,
        hrest _ ?_ ?_ le_rfl ?_ ?_ ?_ rfl, rfl⟩ <;> simp only <;> omega
  | whole hfirst hroom =>
      refine ⟨rfl, hnode _ hfirst rfl (by rw [← hfirst, hdata]) hroom.symm
        rfl, ?_⟩
      simp only [Tiles]
      omega
  | middle hfirst hlast =>
      have hbefore : cur.data + (holeBefore cur seqnum).size =
          (seqnum - 1) * 1000 := by
        simp only [holeBefore]
        omega
      have hpacket : (packetInside cur seqnum 1000).data =
          (seqnum - 1) * 1000 := by
        simp only [packetInside]
        rw [hbefore, wrap, if_neg (by omega)]
      have hbehind : (holeBehind cur seqnum 1000).data =
          (seqnum + 1 - 1) * 1000 := by
        simp only [holeBehind]
        rw [hpacket, wrap, if_neg (by omega)]
        omega
      refine ⟨rfl, hrest _ le_rfl ?_ ?_ ?_ hdata ?_ hhole, ?_,
        hnode _ rfl rfl hpacket rfl rfl, rfl,
        hrest _ ?_ ?_ le_rfl ?_ hbehind ?_ rfl, rfl⟩ <;>
        simp only [holeBefore, packetInside, holeBehind] <;> omega
  | ending hfirst hlast =>
      have hpacket : cur.data + cur.size - 1000 = (seqnum - 1) * 1000 := by
        omega
      refine ⟨rfl, hrest _ le_rfl ?_ ?_ ?_ hdata ?_ hhole, ?_,
        hnode _ rfl rfl ?_ rfl rfl, ?_⟩
      · simp only
        omega
      · simp only
        omega
      · simp only
        omega
      · simp only
        omega
      · simp only
        omega
      · simp only
        rw [hpacket, wrap, if_neg (by omega)]
      · simp only [Tiles]
        omega

theorem Tiles.place {before after : List Extent} {cur : Extent} {seqnum : ℤ}
    {placed : Placement} (htiles : Tiles received 1 65 (before ++ cur :: after))
    (hhole : cur.filled = false) (htakes : Takes cur seqnum 1000 placed)
    (hlow : cur.firstSeq ≤ seqnum) (hhigh : seqnum ≤ cur.lastSeq) :
    Tiles (insert seqnum received) 1 65 (refill before placed after) := by
  rw [tiles_append] at htiles
  obtain ⟨mid, hbefore, hfirst, hcur, hafter⟩ := htiles
  have hstart := hbefore.le
  have hend := hafter.le
  have hsplit : refill before placed after =
      before ++ ((placed.front ++ placed.node :: placed.back) ++ after) := by
    simp [refill]
  rw [hsplit, tiles_append]
  refine ⟨mid, hbefore.add (by omega), ?_⟩
  rw [tiles_append]
  refine ⟨cur.lastSeq + 1, ?_, hafter.add (by omega)⟩
  rw [← hfirst]
  exact hcur.place hhole (by omega) (by omega) htakes

end Tiles

/-! ## Arrivals -/

/-- Where no hole fits, the search does not change the ring. -/
theorem seek_of_not_fits {dstart seqnum : ℤ} {runs : List Extent}
    (hlimit : signedInt (dstart + 63) = some (dstart + 63))
    (hwindow : seqnum ≤ dstart + 63)
    (hnot : ∀ run ∈ runs, ¬ Fits run seqnum) :
    seek dstart seqnum 1000 [] runs = some .duplicate ∨
      seek dstart seqnum 1000 [] runs = some .rejected := by
  rcases exists_stop runs seqnum with
    hnone | ⟨before, run, after, rfl, hbefore, hstops⟩
  · exact .inr (seek_eq_rejected hlimit hwindow hnone)
  · left
    rw [seek_skip hlimit hwindow before [] hbefore]
    rcases hstops with ⟨hfilled, hfirst⟩ | hfits
    · exact seek_found hfilled hfirst
    · exact absurd hfits (hnot run (by simp))

theorem Tiles.not_holds {received : Finset ℤ} {first stop seqnum : ℤ}
    {runs : List Extent} (htiles : Tiles received first stop runs)
    (hnew : seqnum ∉ received) : ¬ Holds runs seqnum := by
  rintro ⟨run, hrun, hfilled, hlow, hhigh⟩
  exact hnew (((htiles.mem hrun).1.kind seqnum hlow hhigh).2 hfilled)

theorem Tiles.holesOk {received : Finset ℤ} {dstart : ℤ} {runs : List Extent}
    (htiles : Tiles received 1 65 runs) (hdstart : dstart = 1) :
    HolesOk dstart runs := by
  intro run hrun _ _
  obtain ⟨htile, hlow, hhigh⟩ := htiles.mem hrun
  have hordered := htile.ordered
  have hdata := htile.data_eq
  exact ⟨by omega, by omega, .inr (by omega)⟩

/-- A missing packet can be stored in the hole that contains its number. -/
theorem Tiles.storable {received : Finset ℤ} {r : RingBuffer} {seqnum : ℤ}
    (htiles : Tiles received 1 65 r.runs) (hmax : r.dstart + 63 ≤ intMax)
    (hlow : 1 ≤ seqnum) (hhigh : seqnum ≤ 64) (hnew : seqnum ∉ received) :
    Storable r seqnum := by
  obtain ⟨cur, hcur, hfirst, hlast⟩ := htiles.exists_mem hlow
    (show seqnum < 65 by omega)
  obtain ⟨htile, hstart, hend⟩ := htiles.mem hcur
  have hkind := htile.kind seqnum hfirst hlast
  have hordered := htile.ordered
  have hdata := htile.data_eq
  have hsize := htile.size_eq
  refine ⟨hmax, cur, hcur, ?_, hfirst, hlast, fun _ => ⟨?_, ?_⟩⟩
  · rw [Bool.eq_false_iff]
    exact fun hfilled => hnew (hkind.2 hfilled)
  · omega
  · omega

/-- Before the first read: the ring is cut into tiles, and the live runs hold
the stream. -/
structure Gathered (payload : ℤ → Payload) (received : Finset ℤ)
    (r : RingBuffer) : Prop where
  sound : Sound r
  faithful : Faithful payload r []
  dstart_eq : r.dstart = 1
  tiles : Tiles received 1 65 r.runs

theorem gathered_initHead {payload : ℤ → Payload} :
    Gathered payload ∅ RingBuffer.initHead := by
  have hsound : Sound RingBuffer.initHead := by
    have hmerged := merged_initHead.sound
    rwa [initHead_represents.toRing_eq] at hmerged
  refine ⟨hsound, faithful_initHead, rfl, rfl, ⟨?_, ?_, ?_, ?_⟩, rfl⟩
  · decide
  · decide
  · decide
  · intro seqnum _ _
    simp

/-- Every packet of the first window is taken, or has been taken before. -/
theorem Gathered.addData {payload : ℤ → Payload} {received : Finset ℤ}
    {r : RingBuffer} {seqnum : ℤ} (hgathered : Gathered payload received r)
    (hlow : 1 ≤ seqnum) (hhigh : seqnum ≤ 64) :
    ∃ result r', r.addData seqnum 1000 (payload seqnum).toList =
        some (result, r') ∧
      Gathered payload (insert seqnum received) r' := by
  obtain ⟨hsound, hfaithful, hdstart, htiles⟩ := hgathered
  have hlayout := hfaithful.holding.layout
  have hlength := length_payload (payload seqnum)
  have hmax : r.dstart + 63 ≤ intMax := by
    rw [hdstart]
    decide
  have hlimit := signedInt_window hlayout.one_le
  rw [if_pos hmax] at hlimit
  have hwindow : seqnum ≤ r.dstart + 63 := by omega
  by_cases hnew : seqnum ∈ received
  · have hnot : ∀ run ∈ r.runs, ¬ Fits run seqnum := by
      rintro run hrun ⟨hhole, hrange⟩
      obtain ⟨htile, -, -⟩ := htiles.mem hrun
      have hordered := htile.ordered
      have hfilled := (htile.kind seqnum (by omega) (by omega)).1 hnew
      rw [hhole] at hfilled
      cases hfilled
    rw [hsound.addData_eq, Finset.insert_eq_of_mem hnew]
    rcases seek_of_not_fits hlimit hwindow hnot with hseek | hseek
    · exact ⟨1, r, by rw [hseek]; rfl, hsound, hfaithful, hdstart, htiles⟩
    · exact ⟨0, r, by rw [hseek]; rfl, hsound, hfaithful, hdstart, htiles⟩
  · obtain ⟨r', hadd, -⟩ := (ring_accepts_iff payload hsound hlayout
      (htiles.holesOk hdstart) (by rw [intMax]; omega) (by omega)
      (htiles.not_holds hnew)).2
      (htiles.storable hmax hlow hhigh hnew)
    refine ⟨1, r', hadd, ?_⟩
    rw [← hlength] at hadd
    have harrival := hsound.arrival (by omega) hadd
    have hfaithful' := hfaithful.arrival
      ⟨offSentinel_of_lt (by rw [intMax]; omega),
        fun hlate => absurd hlate (by omega)⟩ harrival
    have hsound' := hsound.of_arrival harrival
    cases harrival with
    | duplicate hseek =>
        obtain ⟨run, hrun, hfirst, hfilled⟩ := seek_duplicate hseek
        obtain ⟨htile, -, -⟩ := htiles.mem hrun
        have hordered := htile.ordered
        exact absurd ((htile.kind seqnum hfirst.le (by omega)).2 hfilled) hnew
    | stored before after runs placed buffer dend hseek _ hmerge =>
        rw [hlength] at hseek
        obtain ⟨mid, cur, hmid, hruns, hhole, -, htakes⟩ := seek_placed hseek
        rw [List.nil_append] at hmid
        subst hmid
        have hbounds := htakes.bounds (hlayout.run_ok cur (by simp [hruns]))
        rw [hruns] at htiles
        exact ⟨hsound', hfaithful', hdstart,
          (htiles.place hhole htakes hbounds.1 hbounds.2).mergeRuns hmerge
            (by decide)⟩

/-- Arrivals in any order and number. -/
theorem exists_gathered (payload : ℤ → Payload) (nums : List ℤ) :
    ∀ (received : Finset ℤ) (t : Session), (∀ s ∈ nums, 1 ≤ s ∧ s ≤ 64) →
      Merged t.sbuffer → Gathered payload received t.sbuffer.toRing →
      ∃ t', (nums.map Call.addData).foldlM (Session.call payload) t = some t' ∧
        Merged t'.sbuffer ∧
        Gathered payload (received ∪ nums.toFinset) t'.sbuffer.toRing := by
  induction nums with
  | nil =>
      intro received t _ hmerged hgathered
      exact ⟨t, rfl, hmerged, by simpa using hgathered⟩
  | cons seqnum nums ih =>
      intro received t hnums hmerged hgathered
      rw [List.forall_mem_cons] at hnums
      obtain ⟨hrange, hrest⟩ := hnums
      obtain ⟨result, r', hadd, hgathered'⟩ :=
        hgathered.addData hrange.1 hrange.2
      obtain ⟨s', hleft, rfl⟩ := hmerged.exists_addData hadd
      have hcall : t.call payload (.addData seqnum) = some
          { t with
            sbuffer := s'
            acked := if result ≠ 0 then seqnum :: t.acked else t.acked } := by
        rw [Session.call, hleft]
        rfl
      obtain ⟨t', hfold, hmerged', hfinal⟩ := ih (insert seqnum received) _ hrest
        (hmerged.called hcall).2 hgathered'
      refine ⟨t', ?_, hmerged', ?_⟩
      · rw [List.map_cons, List.foldlM_cons, hcall]
        exact hfold
      · rwa [List.toFinset_cons, Finset.union_insert, ← Finset.insert_union]

/-! ## The arrangement -/

/-- The numbers of a run. -/
def numbers (run : Extent) : List ℤ :=
  span run.firstSeq (run.lastSeq - run.firstSeq + 1).toNat

theorem mem_span {first seqnum : ℤ} {count : ℕ} :
    seqnum ∈ span first count ↔ first ≤ seqnum ∧ seqnum < first + count := by
  simp only [span, List.mem_map, List.mem_range]
  constructor
  · rintro ⟨k, hk, rfl⟩
    omega
  · rintro ⟨hlow, hhigh⟩
    exact ⟨(seqnum - first).toNat, by omega, by omega⟩

theorem span_add (first : ℤ) (m n : ℕ) :
    span first (m + n) = span first m ++ span (first + m) n := by
  simp only [span, List.range_add, List.map_append, List.map_map]
  congr 1
  apply List.map_congr_left
  intro k _
  simp only [Function.comp_apply, Nat.cast_add, add_assoc]

theorem head_span {first : ℤ} {count : ℕ} (hcount : 0 < count) :
    (span first count).head? = some first := by
  cases count with
  | zero => omega
  | succ count => simp [span, List.range_succ_eq_map]

theorem getLast_span {first : ℤ} {count : ℕ} (hcount : 0 < count) :
    (span first count).getLast? = some (first + count - 1) := by
  cases count with
  | zero => omega
  | succ count =>
      simp only [span, List.range_succ, List.map_append, List.map_cons,
        List.map_nil, List.getLast?_concat, Option.some.injEq]
      omega

variable {received : Finset ℤ}

theorem Tile.head_numbers {run : Extent} (htile : Tile received run) :
    (numbers run).head? = some run.firstSeq := by
  have hordered := htile.ordered
  exact head_span (by omega)

theorem Tile.getLast_numbers {run : Extent} (htile : Tile received run) :
    (numbers run).getLast? = some run.lastSeq := by
  have hordered := htile.ordered
  rw [numbers, getLast_span (by omega), Option.some.injEq]
  omega

theorem Tile.runOf_numbers {run : Extent} (htile : Tile received run) :
    runOf received (numbers run) = run := by
  have hfirst : (numbers run).headD 0 = run.firstSeq := by
    rw [List.headD_eq_head?_getD, htile.head_numbers]
    rfl
  have hlast : (numbers run).getLastD 0 = run.lastSeq := by
    rw [List.getLastD_eq_getLast?, htile.getLast_numbers]
    rfl
  have hkind := htile.kind run.firstSeq le_rfl htile.ordered
  rw [runOf, hfirst, hlast, ← htile.data_eq, ← htile.size_eq]
  simp only [hkind, Bool.decide_eq_true]

theorem Tiles.flatten_numbers {first stop : ℤ} {runs : List Extent}
    (htiles : Tiles received first stop runs) :
    (runs.map numbers).flatten = span first (stop - first).toNat := by
  induction runs generalizing first with
  | nil =>
      simp only [Tiles] at htiles
      simp [htiles, span]
  | cons run rest ih =>
      obtain ⟨hfirst, htile, hrest⟩ := htiles
      have hordered := htile.ordered
      have hle := hrest.le
      rw [List.map_cons, List.flatten_cons, ih hrest, numbers]
      have hstart : run.lastSeq + 1 =
          run.firstSeq + ((run.lastSeq - run.firstSeq + 1).toNat : ℤ) := by
        omega
      rw [hstart, ← span_add, hfirst]
      congr 1
      omega

/-- Neighbours in a settled ring of tiles are of different kinds. -/
theorem Tiles.alternate {dstart first stop : ℤ} {runs : List Extent}
    (htiles : Tiles received first stop runs) (hsettled : Settled dstart runs) :
    runs.IsChain fun run next =>
      next.firstSeq = run.lastSeq + 1 ∧ next.filled = !run.filled := by
  rw [List.isChain_iff_getElem]
  intro i hi
  have hnext := List.isChain_iff_getElem.1 htiles.isChain i hi
  have hfollow := (List.isChain_iff_getElem.1 hsettled i hi).1
  refine ⟨hnext, ?_⟩
  rw [Bool.eq_false_iff, ne_eq, followsOn_iff] at hfollow
  rw [Bool.eq_not]
  exact fun hkinds => hfollow ⟨by omega, hkinds.symm⟩

theorem Tiles.eq_arrangement {dstart : ℤ} {runs : List Extent}
    (htiles : Tiles received 1 65 runs) (hsettled : Settled dstart runs) :
    runs = arrangement received := by
  have hblocks : (span 1 64).splitBy
      (fun a b => decide (a ∈ received ↔ b ∈ received)) = runs.map numbers := by
    have hspan : span 1 64 = (runs.map numbers).flatten :=
      htiles.flatten_numbers.symm
    rw [hspan]
    apply List.splitBy_flatten
    · intro hnil
      obtain ⟨run, hrun, hempty⟩ := List.mem_map.1 hnil
      have hhead := (htiles.mem hrun).1.head_numbers
      rw [hempty] at hhead
      cases hhead
    · intro block hblock
      obtain ⟨run, hrun, rfl⟩ := List.mem_map.1 hblock
      have htile := (htiles.mem hrun).1
      have hkind : ∀ seqnum ∈ numbers run,
          (seqnum ∈ received ↔ run.filled = true) := by
        intro seqnum hmem
        have hordered := htile.ordered
        rw [numbers, mem_span] at hmem
        exact htile.kind seqnum hmem.1 (by omega)
      refine List.Pairwise.isChain (List.pairwise_of_forall_mem_list ?_)
      intro a ha b hb
      simp [hkind a ha, hkind b hb]
    · rw [List.isChain_map]
      refine (htiles.alternate hsettled).imp_of_mem_imp ?_
      rintro run next hrun hnext ⟨-, hkinds⟩
      have hhead := (htiles.mem hnext).1.head_numbers
      have hlast := (htiles.mem hrun).1.getLast_numbers
      have hordered := (htiles.mem hrun).1.ordered
      have hordered' := (htiles.mem hnext).1.ordered
      have hne : numbers run ≠ [] := by
        intro hempty
        simp [hempty] at hlast
      have hne' : numbers next ≠ [] := by
        intro hempty
        simp [hempty] at hhead
      refine ⟨hne, hne', ?_⟩
      rw [(List.getLast_eq_iff_getLast?_eq_some hne).2 hlast,
        (List.head_eq_iff_head?_eq_some hne').2 hhead, decide_eq_false_iff_not,
        (htiles.mem hrun).1.kind run.lastSeq hordered le_rfl,
        (htiles.mem hnext).1.kind next.firstSeq le_rfl hordered', hkinds]
      simp
  rw [arrangement, hblocks, List.map_map]
  calc runs = runs.map id := runs.map_id.symm
    _ = runs.map (runOf received ∘ numbers) := by
        apply List.map_congr_left
        intro run hrun
        exact (htiles.mem hrun).1.runOf_numbers.symm

/-! ## Stored bytes -/

theorem stream_eq_streamFrom (payload : ℤ → Payload) (count : ℕ) :
    stream payload count = streamFrom payload 0 (1000 * count) := by
  apply List.ext_getElem
  · rw [length_stream, length_streamFrom]
  · intro i hleft hright
    rw [getElem_stream]
    simp [streamFrom]

theorem payload_eq_streamFrom (payload : ℤ → Payload) (seqnum : ℤ) :
    (payload seqnum).toList = streamFrom payload (1000 * (seqnum - 1)) 1000 := by
  apply List.ext_getElem
  · rw [List.Vector.toList_length, length_streamFrom]
  · intro i hleft hright
    rw [← streamByte_eq]
    simp [streamFrom]

/-- Inside a filled tile the buffer holds the stream. -/
theorem Gathered.read {payload : ℤ → Payload} {r : RingBuffer}
    (hgathered : Gathered payload received r) {run : Extent}
    (hrun : run ∈ r.runs) (hfilled : run.filled = true) {off len : ℕ}
    (hlow : run.data ≤ off) (hhigh : (off + len : ℤ) ≤ run.data + run.size) :
    memcpyOut 64000 r.buffer off len = some (streamFrom payload off len) := by
  obtain ⟨htile, hfirst, hlast⟩ := hgathered.tiles.mem hrun
  have hdata := htile.data_eq
  have hsize := htile.size_eq
  have hstored := hgathered.faithful.holding.stored run hrun
    (by rw [hgathered.dstart_eq]; exact hfirst)
  obtain ⟨bytes, hcopy⟩ : ∃ bytes,
      memcpyOut 64000 r.buffer off len = some bytes :=
    ⟨_, if_pos (by omega)⟩
  rw [hcopy, memcpyOut_eq_circRead hcopy, Option.some.injEq, Int.toNat_natCast]
  apply List.map_congr_left
  intro i hi
  rw [List.mem_range] at hi
  exact hstored.bytes hfilled _ (by omega) (by omega)

theorem Gathered.packet {payload : ℤ → Payload} {r : RingBuffer}
    (hgathered : Gathered payload received r) {seqnum : ℤ} (hlow : 1 ≤ seqnum)
    (hhigh : seqnum ≤ 64) (hmem : seqnum ∈ received) :
    memcpyOut 64000 r.buffer ((seqnum - 1) * 1000) 1000 =
      some (payload seqnum).toList := by
  obtain ⟨run, hrun, hfirst, hlast⟩ := hgathered.tiles.exists_mem hlow
    (show seqnum < 65 by omega)
  have htile := (hgathered.tiles.mem hrun).1
  have hfilled := (htile.kind seqnum hfirst hlast).1 hmem
  have hdata := htile.data_eq
  have hsize := htile.size_eq
  obtain ⟨off, hoff⟩ := Int.eq_ofNat_of_zero_le
    (show 0 ≤ (seqnum - 1) * 1000 by omega)
  rw [payload_eq_streamFrom, mul_comm 1000, hoff]
  refine hgathered.read hrun hfilled ?_ ?_
  · omega
  · push_cast
    omega

/-! ## Reading -/

/-- What is left to read of a ring without stale runs: the bytes of the run at
`head`, or nothing where that is a hole. -/
inductive Unread (r : RingBuffer) : List UInt8 → Prop where
  | run (cur : Extent) (rest : List Extent) (bytes : List UInt8) :
      r.runs = cur :: rest → cur.filled = true → cur.firstSeq = r.dstart →
      0 < cur.size →
      memcpyOut 64000 r.buffer cur.data cur.size = some bytes →
      (∀ run ∈ rest, r.dstart ≤ run.firstSeq) → Unread r bytes
  | hole (cur : Extent) (rest : List Extent) :
      r.runs = cur :: rest → cur.filled = false → Unread r []

theorem memcpyOut_take_drop {α : Type*} {cap : ℤ} {mem : ℕ → α} {off len n : ℤ}
    {bytes : List α} (hcopy : memcpyOut cap mem off len = some bytes)
    (hlow : 0 ≤ n) (hhigh : n ≤ len) :
    memcpyOut cap mem off n = some (bytes.take n.toNat) ∧
      memcpyOut cap mem (off + n) (len - n) = some (bytes.drop n.toNat) := by
  have hbounds := memcpyOut_bounds hcopy
  obtain ⟨first, hfirst⟩ : ∃ first, memcpyOut cap mem off n = some first :=
    ⟨_, if_pos (by omega)⟩
  obtain ⟨second, hsecond⟩ : ∃ second,
      memcpyOut cap mem (off + n) (len - n) = some second :=
    ⟨_, if_pos (by omega)⟩
  have hlength : first.length = n.toNat := by
    rw [memcpyOut_eq_circRead hfirst, length_circRead]
  have hjoin : bytes = first ++ second := by
    rw [memcpyOut_eq_circRead hcopy, memcpyOut_eq_circRead hfirst,
      memcpyOut_eq_circRead hsecond]
    calc circRead cap mem off len.toNat
        = circRead cap mem off (n.toNat + (len - n).toNat) := by
          congr 1
          omega
      _ = circRead cap mem off n.toNat ++
            circRead cap mem (off + n.toNat) (len - n).toNat :=
          circRead_add cap mem off _ _
      _ = _ := by rw [Int.toNat_of_nonneg hlow]
  rw [hfirst, hsecond, hjoin, ← hlength, List.take_left, List.drop_left]
  exact ⟨rfl, rfl⟩

theorem fetchBytes_of_memcpyOut {buffer : ℕ → UInt8} {run : Extent} {count : ℤ}
    {bytes : List UInt8} (hinside : run.data + run.size ≤ 64000)
    (hcopy : memcpyOut 64000 buffer run.data count = some bytes) :
    fetchBytes buffer run count = some bytes := by
  rw [fetchBytes, if_neg (by omega), hcopy]

/-- The merge after the run at `head` has been delivered, on a ring without
stale runs. -/
theorem exists_mergeRuns_deliver {dstart : ℤ} {cur : Extent}
    {rest : List Extent} (hlayout : Layout dstart (cur :: rest))
    (hfirst : cur.firstSeq = dstart) (hsettled : Settled dstart (cur :: rest))
    (hfilled : cur.filled = true)
    (hlive : ∀ run ∈ rest, dstart ≤ run.firstSeq) :
    ∃ next runs, mergeRuns (cur.lastSeq + 1)
        (rest ++ [{ cur with filled := false }]) = some (next :: runs) ∧
      next.filled = false := by
  have hmerge : mergeRuns (cur.lastSeq + 1)
      (rest ++ [{ cur with filled := false }]) ≠ none := by
    rw [ne_eq, mergeRuns_deliver_eq_none_iff hlayout hfirst hsettled hfilled]
    rintro ⟨-, -, last, hlast, -, -, hstale⟩
    have hmem := List.mem_of_mem_getLast? hlast
    have hordered := (hlayout.run_ok last (by simp [hmem])).ordered
    have hlive := hlive last hmem
    omega
  obtain ⟨merged, hmerged⟩ := Option.ne_none_iff_exists'.1 hmerge
  cases rest with
  | nil =>
      obtain ⟨next, runs, rfl, -, hkind⟩ := head_mergeRuns hmerged
      exact ⟨next, runs, hmerged, hkind⟩
  | cons other rest =>
      obtain ⟨next, runs, rfl, -, hkind⟩ := head_mergeRuns hmerged
      refine ⟨next, runs, hmerged, ?_⟩
      have hordered := (hlayout.run_ok other (by simp)).ordered
      have hother := hlive other (by simp)
      have hnext : other ∈ (other :: rest).head? := rfl
      rcases stale_or_hole_of_next hlayout hfirst hsettled hfilled hnext with
        hstale | ⟨-, hhole⟩
      · omega
      · rw [hkind, hhole]

/-- A request takes the next piece, and leaves what follows it. -/
theorem Unread.requestData {r : RingBuffer} {bytes : List UInt8} {size : ℤ}
    (hunread : Unread r bytes) (hsound : Sound r)
    (hlayout : Layout r.dstart r.runs) (hsize : 0 ≤ size) :
    ∃ r', r.requestData size = some (((bytes.take size.toNat).length : ℤ),
        bytes.take size.toNat, r') ∧
      Unread r' (bytes.drop size.toNat) := by
  cases hunread with
  | hole cur rest hruns hhole =>
      refine ⟨r, ?_, ?_⟩
      · simp [RingBuffer.requestData, hruns, hhole]
      · rw [List.drop_nil]
        exact .hole cur rest hruns hhole
  | run cur rest bytes hruns hfilled hfirst hpos hcopy hlive =>
      have hbounds := memcpyOut_bounds hcopy
      have hlength : (bytes.length : ℤ) = cur.size := by
        rw [memcpyOut_eq_circRead hcopy, length_circRead]
        omega
      rw [RingBuffer.requestData]
      simp only [hruns]
      rw [if_pos ⟨hfilled, hfirst⟩]
      by_cases hwhole : cur.size ≤ size
      · have hsettled := hsound.settled
        rw [hruns] at hlayout hsettled
        obtain ⟨next, runs, hmerge, hhole⟩ :=
          exists_mergeRuns_deliver hlayout hfirst hsettled hfilled hlive
        have hcur := hlayout.run_ok cur (by simp)
        have hstored := hcur.stored hfilled
        have hordered := hcur.ordered
        have hone := hlayout.one_le
        rw [intMax] at hstored
        rw [if_pos hwhole, fetchBytes_of_memcpyOut hbounds.2.2 hcopy,
          Option.bind_some, signedInt, if_pos (by omega), Option.bind_some,
          RingBuffer.mergeList, hmerge]
        refine ⟨{ r with dstart := cur.lastSeq + 1, runs := next :: runs },
          ?_, ?_⟩
        · rw [List.take_of_length_le (by omega), hlength]
          rfl
        · rw [List.drop_of_length_le (by omega)]
          exact .hole next runs rfl hhole
      · obtain ⟨htake, hdrop⟩ := memcpyOut_take_drop hcopy hsize (by omega)
        rw [if_neg hwhole, fetchBytes_of_memcpyOut hbounds.2.2 htake]
        have hcount : ((bytes.take size.toNat).length : ℤ) = size := by
          rw [List.length_take]
          omega
        refine ⟨{ r with
          runs := { cur with data := cur.data + size,
                             size := cur.size - size } :: rest }, ?_,
          .run _ rest _ rfl hfilled hfirst ?_ hdrop hlive⟩
        · rw [hcount]
          rfl
        · simp only
          omega

theorem requests_eq_pieces {s : SBuffer} {bytes : List UInt8} {sizes : List ℤ}
    (hmerged : Merged s) (hlayout : Layout s.toRing.dstart s.toRing.runs)
    (hunread : Unread s.toRing bytes) (hsizes : ∀ size ∈ sizes, 0 ≤ size) :
    requests s sizes = some (pieces bytes sizes) := by
  induction sizes generalizing s bytes with
  | nil => rfl
  | cons size sizes ih =>
      rw [List.forall_mem_cons] at hsizes
      obtain ⟨r', hrequest, hunread'⟩ :=
        hunread.requestData hmerged.sound hlayout hsizes.1
      obtain ⟨s', hleft, rfl⟩ := hmerged.exists_requestData hrequest
      obtain ⟨hdelivery, hmerged'⟩ := hmerged.requestData hleft
      have hrest := ih hmerged' (hlayout.delivery hdelivery) hunread' hsizes.2
      rw [requests, hleft, Option.bind_some]
      simp only [hrest]
      rfl

/-- The leading block of arrived packets ends where the run at `head` does. -/
theorem Tiles.prefixLength_eq {dstart : ℤ} {first : Extent} {rest : List Extent}
    (htiles : Tiles received 1 65 (first :: rest))
    (hsettled : Settled dstart (first :: rest)) :
    (prefixLength received : ℤ) =
      if first.filled = true then first.lastSeq else 0 := by
  have halternate := htiles.alternate hsettled
  obtain ⟨hone, htile, hrest⟩ := htiles
  have hordered := htile.ordered
  have hstop := hrest.le
  split
  · rename_i hfilled
    suffices hlength : prefixLength received = first.lastSeq.toNat by omega
    rw [prefixLength, Nat.findGreatest_eq_iff]
    refine ⟨by omega, fun _ i hi => ?_, fun n hlow hhigh hall => ?_⟩
    · exact (htile.kind _ (by omega) (by omega)).2 hfilled
    · have hmem := hall first.lastSeq.toNat hlow
      rw [Int.toNat_of_nonneg (by omega)] at hmem
      cases rest with
      | nil =>
          simp only [Tiles] at hrest
          omega
      | cons next rest =>
          obtain ⟨hnext, htile', -⟩ := hrest
          have hkinds := (List.isChain_cons_cons.1 halternate).1.2
          have hkind := (htile'.kind _ hnext.le
            (by have := htile'.ordered; omega)).1 hmem
          rw [hkinds, hfilled] at hkind
          cases hkind
  · rename_i hhole
    rw [Nat.cast_eq_zero, prefixLength, Nat.findGreatest_eq_zero_iff]
    intro n hpos _ hall
    exact hhole ((htile.kind _ (by omega) (by omega)).1 (hall 0 hpos))

theorem Gathered.unread {payload : ℤ → Payload} {r : RingBuffer}
    (hgathered : Gathered payload received r) :
    Unread r (stream payload (prefixLength received)) := by
  have htiles := hgathered.tiles
  have hsettled := hgathered.sound.settled
  obtain ⟨first, rest, hruns⟩ :=
    List.exists_cons_of_ne_nil hgathered.sound.nonempty
  have hmem : first ∈ r.runs := by simp [hruns]
  rw [hruns] at htiles hsettled
  have hlength := htiles.prefixLength_eq hsettled
  have hlater : ∀ run ∈ rest, 1 ≤ run.firstSeq := fun run hrun =>
    (htiles.mem (List.mem_cons_of_mem _ hrun)).2.1
  obtain ⟨hone, htile, -⟩ := htiles
  have hordered := htile.ordered
  have hdata := htile.data_eq
  have hsize := htile.size_eq
  by_cases hfilled : first.filled = true
  · rw [if_pos hfilled] at hlength
    refine .run first rest _ hruns hfilled (by rw [hone, hgathered.dstart_eq])
      (by omega) ?_ (by rwa [hgathered.dstart_eq])
    have hplace : first.data = ((0 : ℕ) : ℤ) := by omega
    have hcount : first.size = ((1000 * prefixLength received : ℕ) : ℤ) := by
      omega
    rw [stream_eq_streamFrom, hplace, hcount]
    exact hgathered.read hmem hfilled hplace.le (by omega)
  · rw [if_neg hfilled] at hlength
    rw [Nat.cast_eq_zero.1 hlength]
    exact .hole first rest hruns (Bool.eq_false_iff.2 hfilled)

/-- Reassembly does not depend on the order in which packets arrive, nor on how
often: what the ring looks like, and what is read from it, is a function of the
set of packets. -/
theorem reassembled (payload : ℤ → Payload) (nums : List ℤ)
    (hnums : ∀ s ∈ nums, 1 ≤ s ∧ s ≤ 64) :
    ∃ t, (nums.map Call.addData).foldlM (Session.call payload) Session.start =
        some t ∧
      t.sbuffer.toRing.runs = arrangement nums.toFinset ∧
      ((arrangement nums.toFinset).IsChain fun run next =>
        next.firstSeq = run.lastSeq + 1 ∧ next.filled = !run.filled) ∧
      (∀ s ∈ nums, memcpyOut 64000 t.sbuffer.buffer ((s - 1) * 1000) 1000 =
        some (payload s).toList) ∧
      ∀ sizes : List ℤ, (∀ size ∈ sizes, 0 ≤ size) →
        requests t.sbuffer sizes = some (pieces
          (stream payload (prefixLength nums.toFinset)) sizes) := by
  have hstart : Gathered payload ∅ Session.start.sbuffer.toRing := by
    rw [show Session.start.sbuffer = initHead from rfl,
      initHead_represents.toRing_eq]
    exact gathered_initHead
  obtain ⟨t, hfold, hmerged, hgathered⟩ :=
    exists_gathered payload nums ∅ Session.start hnums merged_initHead hstart
  rw [Finset.empty_union] at hgathered
  have harranged := hgathered.tiles.eq_arrangement hgathered.sound.settled
  refine ⟨t, hfold, harranged, ?_, ?_, ?_⟩
  · rw [← harranged]
    exact hgathered.tiles.alternate hgathered.sound.settled
  · intro s hs
    obtain ⟨hlow, hhigh⟩ := hnums s hs
    exact hgathered.packet hlow hhigh (List.mem_toFinset.2 hs)
  · intro sizes hsizes
    exact requests_eq_pieces hmerged hgathered.faithful.holding.layout
      hgathered.unread hsizes

/-- Packets 3, 1, 2 and 1 again arrive, and are read in two pieces. -/
theorem reassembled_three :
    ∃ t, ([3, 1, 2, 1].map Call.addData).foldlM (Session.call numbered)
        Session.start = some t ∧
      t.sbuffer.toRing.runs =
        [{ firstSeq := 1, lastSeq := 3, data := 0, size := 3000,
           filled := true },
         { firstSeq := 4, lastSeq := 64, data := 3000, size := 61000,
           filled := false }] ∧
      requests t.sbuffer [2500, 2500, 1] = some (pieces
        (stream numbered 3) [2500, 2500, 1]) := by
  obtain ⟨t, hfold, hruns, -, -, hread⟩ :=
    reassembled numbered [3, 1, 2, 1] (by decide)
  refine ⟨t, hfold, ?_, ?_⟩
  · rw [hruns]
    decide +kernel
  · have hlength : prefixLength [3, 1, 2, 1].toFinset = 3 := by decide +kernel
    rw [hread [2500, 2500, 1] (by decide), hlength]

end UdpTransfer.Receiver
