import UdpTransfer.Receiver.Termination

/-!
# Packets inside the window

A packet from `dstart` on finds its place in the live hole that contains its
number, if there is one.  There is none where the last live hole ends before
the window does: a delivered run is only joined to the hole in front of it when
that hole no longer starts at `dstart`.
-/

namespace UdpTransfer.Receiver

open UdpTransfer.Memory
open UdpTransfer.Runs
open SBuffer

/-- A live hole starts in the buffer or one packet behind its end, and is open
or ends inside the window. -/
structure HoleOk (dstart : ℤ) (run : Extent) : Prop where
  data_nonneg : 0 ≤ run.data
  data_le : run.data ≤ 65000
  last : run.lastSeq = intMax ∨ run.lastSeq ≤ dstart + 63

def HolesOk (dstart : ℤ) (runs : List Extent) : Prop :=
  ∀ run ∈ runs, run.filled = false → dstart ≤ run.firstSeq → HoleOk dstart run

theorem holesOk_mergeStep {dstart : ℤ} {left right : List Extent}
    (hstep : MergeStep dstart left right) (hlayout : Layout dstart left)
    (hholes : HolesOk dstart left) : HolesOk dstart right := by
  apply hstep.forall_run hholes
  · intro current hcurrent next hnext hfollow hhole hlive
    obtain ⟨hlast, hkinds⟩ := followsOn_iff.1 hfollow
    have hordered := (hlayout.run_ok current hcurrent).ordered
    have hcur := hholes current hcurrent hhole hlive
    have hbehind := hholes next hnext (hkinds ▸ hhole)
      (by simp only [mergeFollowing_firstSeq] at hlive; omega)
    exact ⟨hcur.data_nonneg, hcur.data_le, hbehind.last⟩
  · intro current hcurrent next _ _ hhole hlive
    have hcur := hholes current hcurrent hhole hlive
    exact ⟨hcur.data_nonneg, hcur.data_le, .inl rfl⟩

theorem holesOk_mergeRuns {dstart : ℤ} {runs merged : List Extent}
    (hmerge : mergeRuns dstart runs = some merged) (hlayout : Layout dstart runs)
    (hholes : HolesOk dstart runs) : HolesOk dstart merged := by
  have hboth := mergeRuns_invariant
    (I := fun runs => Layout dstart runs ∧ HolesOk dstart runs)
    (fun _ _ hstep h =>
      ⟨h.1.mergeStep hstep, holesOk_mergeStep hstep h.1 h.2⟩)
    hmerge ⟨hlayout, hholes⟩
  exact hboth.2

theorem wrap_bounds {offset : ℤ} (hlow : 0 ≤ offset) (hhigh : offset ≤ 128000) :
    0 ≤ wrap offset ∧ wrap offset ≤ 64000 := by
  rw [wrap]
  split <;> omega

/-- The holes that remain of a live hole, where the packet itself has been put
into the buffer. -/
theorem holesOk_place {dstart seqnum : ℤ} {before after : List Extent}
    {cur : Extent} {placed : Placement}
    (hlayout : Layout dstart (before ++ cur :: after))
    (hholes : HolesOk dstart (before ++ cur :: after))
    (hhole : cur.filled = false) (htakes : Takes cur seqnum 1000 placed)
    (hplace : 0 ≤ placed.node.data ∧ placed.node.data ≤ 64000)
    (hwindow : seqnum ≤ dstart + 63) :
    HolesOk dstart (refill before placed after) := by
  have hcur := hlayout.run_ok cur (by simp)
  have hbounds := htakes.bounds hcur
  have hside := hcur.side
  have hroom := hcur.room
  have hlive : dstart ≤ cur.firstSeq → HoleOk dstart cur :=
    hholes cur (by simp) hhole
  intro run hrun hrunHole hrunLive
  simp only [refill, List.mem_append, List.mem_cons] at hrun
  rcases hrun with (hrun | hrun) | rfl | hrun | hrun
  · exact hholes run (by simp [hrun]) hrunHole hrunLive
  · cases htakes with
    | beginning hfirst hsize _ => cases hrun
    | whole hfirst hsize => cases hrun
    | middle hfirst hend =>
        rw [List.mem_singleton] at hrun
        subst hrun
        have hok := hlive hrunLive
        exact ⟨hok.data_nonneg, hok.data_le,
          .inr (by simp only [holeBefore]; omega)⟩
    | ending hfirst hend =>
        rw [List.mem_singleton] at hrun
        subst hrun
        have hok := hlive hrunLive
        exact ⟨hok.data_nonneg, hok.data_le, .inr (by simp only; omega)⟩
  · rw [htakes.node.2.2.2] at hrunHole
    cases hrunHole
  · cases htakes with
    | beginning hfirst hsize _ =>
        rw [List.mem_singleton] at hrun
        subst hrun
        simp only at hrunLive hplace
        have hok := hlive (by omega)
        exact ⟨by simp only; omega, by simp only; omega, hok.last⟩
    | whole hfirst hsize => cases hrun
    | middle hfirst hend =>
        rw [List.mem_singleton] at hrun
        subst hrun
        simp only [holeBehind] at hrunLive hplace
        have hok := hlive (by omega)
        have hdata := wrap_bounds
          (show 0 ≤ (packetInside cur seqnum 1000).data + 1000 by omega)
          (by omega)
        exact ⟨hdata.1, hdata.2.trans (by decide), hok.last⟩
    | ending hfirst hend => cases hrun
  · exact hholes run (by simp [hrun]) hrunHole hrunLive

/-! ## Sessions -/

theorem HolesOk.arrival {r r' : RingBuffer} {seqnum result : ℤ}
    {data : List UInt8} (hlength : (data.length : ℤ) = 1000)
    (hoff : OffSentinel r.dstart seqnum) (hlayout : Layout r.dstart r.runs)
    (hsound : Sound r) (hadd : r.addData seqnum 1000 data = some (result, r'))
    (hholes : HolesOk r.dstart r.runs) : HolesOk r'.dstart r'.runs := by
  rw [hsound.addData_eq, Option.bind_eq_some_iff] at hadd
  obtain ⟨answer, hseek, hadd⟩ := hadd
  cases answer with
  | duplicate =>
      cases hadd
      exact hholes
  | rejected =>
      cases hadd
      exact hholes
  | placed before placed after =>
      obtain ⟨buffer, runs, hstore, hmerge, -, rfl⟩ := settle_eq_some_iff.1 hadd
      obtain ⟨cur, hruns, -, hfits, hfill, -, hwindow⟩ :=
        (seek_eq_placed_iff hlayout.one_le).1 hseek
      have htakes := takes_of_fillRun hfits.1 hfill (filled_of_fits hfits hfill)
      have hplace := (storeBytes_eq_some_iff r.buffer
        (htakes.node.2.2.1.trans hlength.symm) (by omega)).1 ⟨buffer, hstore⟩
      rw [hruns] at hlayout hholes
      have hmax := hoff.lt_intMax (hlayout.run_ok cur (by simp)) htakes hwindow
      exact holesOk_mergeRuns hmerge
        (hlayout.place hfits.1 htakes hmax hwindow)
        (holesOk_place hlayout hholes hfits.1 htakes hplace hwindow)

theorem HolesOk.forward {dstart dstart' : ℤ} {runs : List Extent}
    (hle : dstart ≤ dstart') (hholes : HolesOk dstart runs) :
    HolesOk dstart' runs := by
  intro run hrun hhole hlive
  have hok := hholes run hrun hhole (hle.trans hlive)
  exact ⟨hok.data_nonneg, hok.data_le, hok.last.imp_right fun h => by omega⟩

theorem HolesOk.delivery {r r' : RingBuffer} {size : ℤ} {bytes : List UInt8}
    (hlayout : Layout r.dstart r.runs) (hdelivery : Delivery r size bytes r')
    (hholes : HolesOk r.dstart r.runs) : HolesOk r'.dstart r'.runs := by
  cases hdelivery with
  | nothing => exact hholes
  | whole cur rest runs hruns hfilled hfirst _ hmerge =>
      rw [hruns] at hlayout hholes
      have hordered := (hlayout.run_ok cur (by simp)).ordered
      refine holesOk_mergeRuns hmerge (hlayout.deliver hfilled hfirst) ?_
      have hforward := hholes.forward
        (show r.dstart ≤ cur.lastSeq + 1 by omega)
      intro run hrun hhole hlive
      rw [List.mem_append, List.mem_singleton] at hrun
      rcases hrun with hrun | rfl
      · exact hforward run (by simp [hrun]) hhole hlive
      · simp only at hlive
        omega
  | part cur rest hruns hfilled _ _ _ =>
      rw [hruns] at hholes
      intro run hrun hhole hlive
      rcases List.mem_cons.1 hrun with rfl | hrun
      · rw [hfilled] at hhole
        cases hhole
      · exact hholes run (by simp [hrun]) hhole hlive

theorem holesOk_reachable {payload : ℤ → Payload} {t : Session}
    (hreach : ((receiver payload).restrict noSentinel).Reachable t) :
    HolesOk t.sbuffer.toRing.dstart t.sbuffer.toRing.runs := by
  refine ring_invariant (I := fun r => HolesOk r.dstart r.runs) ?_ ?_ ?_ hreach
  · intro run hrun _ _
    simp only [RingBuffer.initHead, List.mem_singleton] at hrun
    subst hrun
    exact ⟨by decide, by decide, by decide⟩
  · intro t seqnum result r' hguard hreach hholes hadd
    have hoff : OffSentinel t.sbuffer.toRing.dstart seqnum := hguard
    exact hholes.arrival (length_payload _) hoff (layout_reachable hreach)
      (merged_reachable hreach.of_restrict).sound hadd
  · intro t size count bytes r' _ hreach hholes hrequest
    exact hholes.delivery (layout_reachable hreach)
      (delivery_of_requestData hrequest)

/-- `addData` stores the packet: it returns 1, and the number is in a filled
run afterwards. -/
def Accepted (payload : ℤ → Payload) (s : SBuffer) (seqnum : ℤ) : Prop :=
  ∃ s', s.addData seqnum 1000 (payload seqnum).toList = some (1, s') ∧
    Holds s'.toRing.runs seqnum

/-- The condition: a hole contains the number, and if it starts with it, it
has room for a packet and starts inside the buffer. -/
def Storable (r : RingBuffer) (seqnum : ℤ) : Prop :=
  r.dstart + 63 ≤ intMax ∧ ∃ hole ∈ r.runs, hole.filled = false ∧
    hole.firstSeq ≤ seqnum ∧ seqnum ≤ hole.lastSeq ∧
    (hole.firstSeq = seqnum → 1000 ≤ hole.size ∧ hole.data ≤ 64000)

/-- What a live hole yields lies in the buffer, except for its first packet
where it starts behind the end. -/
theorem HoleOk.place {dstart seqnum : ℤ} {cur : Extent} {placed : Placement}
    (hok : HoleOk dstart cur) (hcur : RunOk dstart cur)
    (hhole : cur.filled = false) (hlive : dstart ≤ cur.firstSeq)
    (htakes : Takes cur seqnum 1000 placed) (hmax : seqnum < intMax)
    (hwindow : seqnum ≤ dstart + 63)
    (hstart : cur.firstSeq = seqnum → cur.data ≤ 64000) :
    0 ≤ placed.node.data ∧ placed.node.data ≤ 64000 := by
  have hlow := hok.data_nonneg
  have hhigh := hok.data_le
  have hbounds := htakes.bounds hcur
  cases htakes with
  | beginning hfirst hsize _ => exact ⟨hlow, hstart hfirst⟩
  | whole hfirst hsize => exact ⟨hlow, hstart hfirst⟩
  | middle hfirst hend =>
      apply wrap_bounds
      · simp only [holeBefore]
        omega
      · simp only [holeBefore]
        omega
  | ending hfirst hend =>
      have hexact := hcur.exact hhole hlive
      have hlast := hok.last
      apply wrap_bounds
      · omega
      · omega

/-- A live number that is not stored yet is in one hole at most, and nothing in
front of that hole stops the search. -/
theorem Layout.seek_live {r : RingBuffer} {seqnum : ℤ}
    {before after : List Extent} {hole : Extent}
    (hlayout : Layout r.dstart r.runs) (hruns : r.runs = before ++ hole :: after)
    (hlive : r.dstart ≤ hole.firstSeq) (hlow : hole.firstSeq ≤ seqnum)
    (hhigh : seqnum ≤ hole.lastSeq) (hnew : ¬ Holds r.runs seqnum) :
    ∀ other ∈ before, ¬ Stops other seqnum := by
  intro other hother hstops
  have hmem : other ∈ r.runs := by simp [hruns, hother]
  have hother' := hlayout.run_ok other hmem
  have hordered := hother'.ordered
  rcases hstops with ⟨hfilled, hfirst⟩ | ⟨-, hrange⟩
  · exact hnew ⟨other, hmem, hfilled, hfirst.le, by omega⟩
  · have hside := hother'.side
    rw [hruns] at hlayout
    have hapart := hlayout.disjoint hlive
      (List.mem_append_left after hother)
    omega

theorem exists_fillRun (run : Extent) {seqnum : ℤ} (hlow : 0 ≤ seqnum)
    (hmax : seqnum < intMax) : ∃ placed, fillRun run seqnum 1000 = some placed := by
  rw [fillRun]
  split
  · split
    · rw [signedInt, if_pos (by rw [intMax] at hmax; omega)]
      exact ⟨_, rfl⟩
    · split <;> exact ⟨_, rfl⟩
  · split
    · exact ⟨_, rfl⟩
    · split <;> exact ⟨_, rfl⟩

/-- The search comes to a decision where no number overflows. -/
theorem exists_seek {dstart seqnum limit : ℤ}
    (hlimit : signedInt (dstart + 63) = some limit) (hlow : 0 ≤ seqnum)
    (hmax : seqnum < intMax) (runs : List Extent) :
    ∀ before, ∃ answer, seek dstart seqnum 1000 before runs = some answer := by
  induction runs with
  | nil => exact fun _ => ⟨_, rfl⟩
  | cons cur after ih =>
      intro before
      obtain ⟨placed, hfill⟩ := exists_fillRun cur hlow hmax
      rw [seek, hlimit, hfill, Option.bind_some, Option.bind_some]
      split
      · exact ⟨_, rfl⟩
      · split
        · exact ⟨_, rfl⟩
        · split
          · split
            · exact ⟨_, rfl⟩
            · exact ih _
          · exact ih _

/-- `addData` on the ring, for a packet of the window that is not yet stored. -/
theorem ring_accepts_iff (payload : ℤ → Payload) {r : RingBuffer} {seqnum : ℤ}
    (hsound : Sound r) (hlayout : Layout r.dstart r.runs)
    (hholes : HolesOk r.dstart r.runs)
    (hseqnum : seqnum ≠ intMax)
    (hwindow : r.dstart ≤ seqnum ∧ seqnum ≤ r.dstart + 63)
    (hnew : ¬ Holds r.runs seqnum) :
    (∃ r', r.addData seqnum 1000 (payload seqnum).toList = some (1, r') ∧
      Holds r'.runs seqnum) ↔ Storable r seqnum := by
  have hlength := length_payload (payload seqnum)
  have hproper : Proper r.runs := fun run hrun _ =>
    (hlayout.run_ok run hrun).ordered
  rw [hsound.addData_eq]
  constructor
  · rintro ⟨r', hadd, -⟩
    obtain ⟨answer, hseek, hanswer⟩ := Option.bind_eq_some_iff.1 hadd
    cases answer with
    | duplicate =>
        obtain ⟨run, hrun, hfirst, hfilled⟩ := seek_duplicate hseek
        have hordered := hproper run hrun hfilled
        exact absurd ⟨run, hrun, hfilled, hfirst.le, by omega⟩ hnew
    | rejected => cases hanswer
    | placed before placed after =>
        obtain ⟨hole, hruns, -, hfits, hfill, hmax, -⟩ :=
          (seek_eq_placed_iff hlayout.one_le).1 hseek
        obtain ⟨buffer, runs, hstore, -⟩ := settle_eq_some_iff.1 hanswer
        have htakes := takes_of_fillRun hfits.1 hfill
          (filled_of_fits hfits hfill)
        have hhole : hole ∈ r.runs := by simp [hruns]
        have hbounds := htakes.bounds (hlayout.run_ok hole hhole)
        have hplace := (storeBytes_eq_some_iff r.buffer
          (htakes.node.2.2.1.trans hlength.symm) (by omega)).1 ⟨buffer, hstore⟩
        refine ⟨hmax, hole, hhole, hfits.1, hbounds.1, hbounds.2, ?_⟩
        intro hfirst
        cases htakes with
        | beginning _ hsize _ => exact ⟨hsize.le, hplace.2⟩
        | whole _ hsize => exact ⟨hsize.le, hplace.2⟩
        | middle hlt _ => omega
        | ending hlt _ => omega
  · rintro ⟨hmax, hole, hhole, hempty, hlow, hhigh, hroom⟩
    have hrun := hlayout.run_ok hole hhole
    have hside := hrun.side
    have hlast := hrun.bounded
    have hlive : r.dstart ≤ hole.firstSeq := by omega
    obtain ⟨before, after, hruns⟩ := List.append_of_mem hhole
    have hfits : Fits hole seqnum := by
      refine ⟨hempty, ?_⟩
      rcases hlow.eq_or_lt with hfirst | hlt
      · exact .inl ⟨hfirst, (hroom hfirst).1⟩
      · exact .inr ⟨hlt, hhigh⟩
    obtain ⟨placed, hfill⟩ := exists_fillRun hole
      (show 0 ≤ seqnum by have := hlayout.one_le; omega)
      (show seqnum < intMax by omega)
    have htakes := takes_of_fillRun hempty hfill (filled_of_fits hfits hfill)
    have hseek := (seek_eq_placed_iff hlayout.one_le).2 ⟨hole, hruns,
      hlayout.seek_live hruns hlive hlow hhigh hnew, hfits, hfill, hmax,
      hwindow.2⟩
    have hplace := (hholes hole hhole hempty hlive).place hrun hempty hlive
      htakes (by omega) hwindow.2 fun hfirst => (hroom hfirst).2
    have hsettled := hsound.settled
    rw [hruns] at hlayout hsettled
    obtain ⟨runs, hmerge⟩ := mergeRuns_place_live hlayout hsettled hempty
      hwindow.1 htakes (by omega) hwindow.2
    obtain ⟨buffer, hstore⟩ := (storeBytes_eq_some_iff r.buffer
      (htakes.node.2.2.1.trans hlength.symm) (by omega)).2 hplace
    refine ⟨{ buffer := buffer, dstart := r.dstart, runs := runs,
              dend := if seqnum > r.dend then seqnum else r.dend }, ?_, ?_⟩
    · rw [hseek, Option.bind_some]
      exact settle_eq_some_iff.2 ⟨buffer, runs, hstore, hmerge, rfl, rfl⟩
    · rw [hruns] at hproper
      exact holds_mergeRuns hmerge (proper_refill hempty htakes hproper)
        (holds_refill_self htakes)

/-- In every session without the sentinel number, a packet of the window that
is not yet stored is accepted exactly when it can be stored. -/
theorem accepted_iff_storable (payload : ℤ → Payload) (t : Session)
    (hreach : ((receiver payload).restrict noSentinel).Reachable t)
    (seqnum : ℤ) (hseqnum : seqnum ≠ intMax)
    (hwindow : t.sbuffer.dstart ≤ seqnum ∧ seqnum ≤ t.sbuffer.dstart + 63)
    (hnew : ¬ Holds t.sbuffer.toRing.runs seqnum) :
    Accepted payload t.sbuffer seqnum ↔ Storable t.sbuffer.toRing seqnum := by
  have hmerged := merged_reachable hreach.of_restrict
  rw [← ring_accepts_iff payload hmerged.sound
    (layout_reachable hreach) (holesOk_reachable hreach) hseqnum hwindow hnew]
  constructor
  · rintro ⟨s', hadd, hholds⟩
    exact ⟨s'.toRing, hmerged.toRing_addData hadd, hholds⟩
  · rintro ⟨r', hadd, hholds⟩
    obtain ⟨s', hleft, rfl⟩ := hmerged.exists_addData hadd
    exact ⟨s', hleft, hholds⟩

/-- Packet 1 has arrived and been delivered: packet 3 lands in the hole at
`head`, and for packet 65 the recycled hole is of no use. -/
theorem accepted_iff_storable_recycled :
    ∃ t, ((receiver numbered).restrict noSentinel).Reachable t ∧
      t.sbuffer.toRing.runs =
        [⟨2, 64, 1000, 63000, false⟩, ⟨1, 1, 0, 1000, false⟩] ∧
      Accepted numbered t.sbuffer 3 ∧ ¬ Accepted numbered t.sbuffer 65 := by
  obtain ⟨_, _, _, t, hreach, hring, -, -⟩ := reaches_recycled numbered
    noSentinel (fun _ _ => offSentinel_of_lt (by decide)) fun _ _ => trivial
  have hdstart : t.sbuffer.dstart = 2 := congrArg RingBuffer.dstart hring
  have hruns : t.sbuffer.toRing.runs =
      [⟨2, 64, 1000, 63000, false⟩, ⟨1, 1, 0, 1000, false⟩] :=
    congrArg RingBuffer.runs hring
  have hnew : ∀ seqnum, ¬ Holds t.sbuffer.toRing.runs seqnum := by
    rintro seqnum ⟨run, hrun, hfilled, -⟩
    rw [hruns] at hrun
    simp only [List.mem_cons, List.not_mem_nil, or_false] at hrun
    rcases hrun with rfl | rfl <;> cases hfilled
  refine ⟨t, hreach, hruns, ?_, ?_⟩
  · rw [accepted_iff_storable numbered t hreach 3 (by decide)
      (by rw [hdstart]; decide) (hnew 3)]
    rw [Storable, hruns, show t.sbuffer.toRing.dstart = 2 from hdstart]
    exact ⟨by decide, _, List.mem_cons_self, rfl, by decide, by decide,
      by decide⟩
  · rw [accepted_iff_storable numbered t hreach 65 (by decide)
      (by rw [hdstart]; decide) (hnew 65)]
    rintro ⟨-, hole, hhole, -, -, hhigh, -⟩
    rw [hruns] at hhole
    simp only [List.mem_cons, List.not_mem_nil, or_false] at hhole
    rcases hhole with rfl | rfl <;> exact absurd hhigh (by decide)

/-- Packet 1 arrives and is delivered.  The window now reaches to 65, but the
hole that `head` points to ends at 64. -/
theorem not_accepted :
    ¬ ∀ (payload : ℤ → Payload) (t : Session),
      (receiver payload).Reachable t → ∀ seqnum,
        t.sbuffer.dstart ≤ seqnum → seqnum ≤ t.sbuffer.dstart + 63 →
        ¬ Holds t.sbuffer.toRing.runs seqnum →
        Accepted payload t.sbuffer seqnum := by
  intro hclaim
  have h : Reaches numbered anyCall RingBuffer.initHead [] [] := reaches_start
  obtain ⟨_, _, -, h⟩ := h.store 1 (fun _ _ => trivial) rfl (by decide) rfl
  have h := h.deliver 1000 (fun _ _ => trivial) rfl rfl rfl (by decide)
    (by decide) (by decide) rfl
  obtain ⟨t, hreach, hring, -, -⟩ := h
  have hmerged := merged_reachable hreach.of_restrict
  have hdstart : t.sbuffer.dstart = 2 := congrArg RingBuffer.dstart hring
  have hruns : t.sbuffer.toRing.runs =
      [{ firstSeq := 2, lastSeq := 64, data := 1000, size := 63000,
         filled := false },
       { firstSeq := 1, lastSeq := 1, data := 0, size := 1000,
         filled := false }] :=
    congrArg RingBuffer.runs hring
  have hnew : ¬ Holds t.sbuffer.toRing.runs 65 := by
    rw [hruns]
    rintro ⟨run, hrun, hfilled, -⟩
    simp only [List.mem_cons, List.not_mem_nil, or_false] at hrun
    rcases hrun with rfl | rfl <;> cases hfilled
  obtain ⟨s', hadd, -⟩ := hclaim numbered t hreach.of_restrict 65
    (by rw [hdstart]; decide) (by rw [hdstart]; decide) hnew
  have hright := hmerged.toRing_addData hadd
  have hrejected : seek t.sbuffer.toRing.dstart 65 1000 []
      t.sbuffer.toRing.runs = some .rejected := by
    rw [hring]
    rfl
  rw [hmerged.sound.addData_eq, hrejected] at hright
  cases hright

end UdpTransfer.Receiver
