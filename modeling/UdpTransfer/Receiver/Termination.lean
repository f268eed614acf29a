import UdpTransfer.Receiver.Duplicates
import UdpTransfer.Receiver.Undefined

/-!
# When the merge returns

The inner loops of `mergeList` do not test for `head`.  They run past it in two
ways only.  A delivered run joins the stale hole in front of it and with it the
hole that `head` then points to, or a late packet closes a gap in the stale
part of a ring that has no hole left.  A packet from `dstart` on never does
this: what the merge widens then is live, and behind it comes the run that
starts at `dstart`.
-/

namespace UdpTransfer.Receiver

open UdpTransfer.Memory
open UdpTransfer.Runs
open SBuffer

/-- No stale run is followed on. -/
def StaleApart (dstart : ℤ) (runs : List Extent) : Prop :=
  runs.IsChain fun run next => run.firstSeq < dstart → followsOn run next = false

/-- A hole that another hole follows and cannot be joined by number is live. -/
theorem Layout.live_of_holes {dstart : ℤ} {before after : List Extent}
    {current next : Extent}
    (hlayout : Layout dstart (before ++ current :: next :: after))
    (hhole : current.filled = false) (hhole' : next.filled = false)
    (hfollow : followsOn current next = false) :
    dstart ≤ current.firstSeq := by
  obtain ⟨-, -, hadj⟩ := hlayout.pair
  by_contra hstale
  push Not at hstale
  have hnext := (hadj.2 hstale).2 hhole
  rw [Bool.eq_false_iff, ne_eq, followsOn_iff] at hfollow
  exact hfollow ⟨by omega, by rw [hhole, hhole']⟩

/-- Where the run at `head` starts at `dstart` and no stale run is followed on,
the walk returns.  What it has widened is live. -/
theorem walk_returns {dstart : ℤ} (after : List Extent) :
    ∀ (before : List Extent) (current : Extent) (phase : Phase),
      Layout dstart (before ++ current :: after) →
      (firstRun before current).firstSeq = dstart →
      StaleApart dstart (current :: after) →
      (phase ≠ .arrived → dstart ≤ current.firstSeq) →
      (phase = .spare → current.lastSeq = intMax) →
      ∃ runs, walk dstart before current phase after = some runs := by
  induction after with
  | nil =>
      intro before current phase hlayout hfirst _ hlive _
      rw [walk, if_neg]
      · exact ⟨_, rfl⟩
      · have hordered := (hlayout.run_ok current (by simp)).ordered
        rintro (⟨hphase, hfollow⟩ | ⟨-, hspare⟩)
        · have := hlive (by simp [hphase])
          have := (followsOn_iff.1 hfollow).1
          omega
        · exact (sparesHoles_iff.1 hspare).2.2.2 hfirst.symm
  | cons next after ih =>
      intro before current phase hlayout hfirst hapart hlive hopen
      have hkept : ∀ merged : Extent, merged.firstSeq = current.firstSeq →
          (firstRun before merged).firstSeq = dstart := by
        intro merged hmerged
        cases before with
        | nil => exact hmerged.trans hfirst
        | cons front before => exact hfirst
      have hrest : ∀ merged : Extent, dstart ≤ merged.firstSeq →
          StaleApart dstart (merged :: after) := by
        intro merged hmerged
        cases after with
        | nil => exact List.isChain_singleton _
        | cons other after =>
            rw [StaleApart, List.isChain_cons_cons, List.isChain_cons_cons]
              at hapart
            rw [StaleApart, List.isChain_cons_cons]
            exact ⟨fun hstale => absurd hstale (by omega), hapart.2.2⟩
      have hstep := hapart
      rw [StaleApart, List.isChain_cons_cons] at hstep
      rw [walk]
      split
      · rename_i hfollow
        have hcurrent : dstart ≤ current.firstSeq := by
          by_contra hstale
          have hnot := hstep.1 (by omega)
          rw [hfollow.2] at hnot
          cases hnot
        exact ih _ _ _
          (Layout.mergeStep (.following before after current next hfollow.2)
            hlayout)
          (hkept _ rfl) (hrest _ hcurrent) (fun _ => hcurrent) (by simp)
      · rename_i hfollow
        split
        · rename_i hspare
          obtain ⟨hhole, hhole', -, -⟩ := sparesHoles_iff.1 hspare
          have hnot : followsOn current next = false ∨
              current.lastSeq = intMax := by
            by_cases hphase : phase = .spare
            · exact .inr (hopen hphase)
            · left
              simpa [hphase] using hfollow
          have hcurrent : dstart ≤ current.firstSeq := by
            by_cases hphase : phase = .spare
            · exact hlive (by simp [hphase])
            · exact hlayout.live_of_holes hhole hhole'
                (by simpa [hphase] using hfollow)
          exact ih _ _ _
            (Layout.mergeStep (.spare before after current next hspare hnot)
              hlayout)
            (hkept _ rfl) (hrest _ hcurrent) (fun _ => hcurrent) fun _ => rfl
        · refine ih _ _ _ (by simpa using hlayout) ?_ hstep.2 (by simp) (by simp)
          cases before <;> exact hfirst

theorem mergeRuns_returns {dstart : ℤ} {first : Extent} {rest : List Extent}
    (hlayout : Layout dstart (first :: rest)) (hfirst : first.firstSeq = dstart)
    (hapart : StaleApart dstart (first :: rest)) :
    ∃ runs, mergeRuns dstart (first :: rest) = some runs :=
  walk_returns rest [] first .arrived hlayout hfirst hapart (by simp) (by simp)

/-! ## Packets from `dstart` on -/

/-- On a ring with a live run, `head` points to the run that starts at
`dstart`. -/
theorem Layout.head_live {dstart : ℤ} {first run : Extent}
    {rest : List Extent} (hlayout : Layout dstart (first :: rest))
    (hrun : run ∈ first :: rest) (hlive : dstart ≤ run.firstSeq) :
    first.firstSeq = dstart := by
  have hedge := (List.isChain_cons_cons.1 hlayout.chain).1
  rcases hedge.1 le_rfl with h | h
  · simpa [edge] using h
  · have hordered := (hlayout.run_ok first (by simp)).ordered
    rcases List.mem_cons.1 hrun with rfl | hrest
    · omega
    · have hpairs := List.rel_of_pairwise_cons hlayout.pairwise hrest
      have hordered' := (hlayout.run_ok run hrun).ordered
      omega

/-- What a hole is cut into starts no earlier than the hole. -/
theorem Takes.pieces_after {cur : Extent} {seqnum : ℤ} {placed : Placement}
    (htakes : Takes cur seqnum 1000 placed) (hlow : cur.firstSeq ≤ seqnum) :
    ∀ piece ∈ placed.front ++ placed.node :: placed.back,
      cur.firstSeq ≤ piece.firstSeq := by
  intro piece hpiece
  cases htakes with
  | beginning hfirst hsize _ =>
      simp only [List.nil_append, List.mem_cons, List.not_mem_nil, or_false]
        at hpiece
      rcases hpiece with rfl | rfl
      · exact le_rfl
      · simp only
        omega
  | whole hfirst hsize =>
      simp only [List.nil_append, List.mem_singleton] at hpiece
      subst hpiece
      exact le_rfl
  | middle hfirst hend =>
      simp only [List.cons_append, List.nil_append, List.mem_cons,
        List.not_mem_nil, or_false] at hpiece
      rcases hpiece with rfl | rfl | rfl
      · exact le_rfl
      · exact hlow
      · simp only [holeBehind]
        omega
  | ending hfirst hend =>
      simp only [List.cons_append, List.nil_append, List.mem_cons,
        List.not_mem_nil, or_false] at hpiece
      rcases hpiece with rfl | rfl
      · exact le_rfl
      · exact hlow

/-- Putting a packet into a live hole of a settled ring leaves its stale runs
as they are. -/
theorem staleApart_refill {dstart seqnum : ℤ} {before after : List Extent}
    {cur : Extent} {placed : Placement}
    (hlayout : Layout dstart (before ++ cur :: after))
    (hsettled : Settled dstart (before ++ cur :: after))
    (hlive : dstart ≤ cur.firstSeq) (htakes : Takes cur seqnum 1000 placed) :
    StaleApart dstart (refill before placed after) := by
  have hbounds := htakes.bounds (hlayout.run_ok cur (by simp))
  have hpieces : ∀ piece ∈ placed.front ++ placed.node :: placed.back,
      dstart ≤ piece.firstSeq := fun piece hpiece =>
    hlive.trans (htakes.pieces_after hbounds.1 piece hpiece)
  have hsplit : (before ++ ([cur] ++ after)).IsChain fun run next =>
      followsOn run next = false ∧ sparesHoles dstart run next = false := by
    simpa [Settled] using hsettled
  rw [isChain_block (by simp)] at hsplit
  obtain ⟨hbefore, -, hafter, -, -⟩ := hsplit
  have hregroup : refill before placed after =
      before ++ ((placed.front ++ placed.node :: placed.back) ++ after) := by
    simp [refill]
  rw [StaleApart, hregroup, isChain_block (by simp)]
  refine ⟨hbefore.imp fun _ _ hpair _ => hpair.1, ?_,
    hafter.imp fun _ _ hpair _ => hpair.1, ?_, ?_⟩
  · refine List.Pairwise.isChain (List.pairwise_of_forall_mem_list ?_)
    intro piece hpiece other _ hstale
    exact absurd hstale (by have := hpieces piece hpiece; omega)
  · intro front hfront piece _ hstale
    -- a stale run has only stale runs behind it
    have hpairs := hlayout.pairwise
    rw [List.pairwise_append] at hpairs
    have hordered := (hlayout.run_ok cur (by simp)).ordered
    have := hpairs.2.2 front (List.mem_of_mem_getLast? hfront) cur (by simp)
    omega
  · intro piece hpiece next _ hstale
    have := hpieces piece (List.mem_of_mem_getLast? hpiece)
    exact absurd hstale (by omega)

/-- The merge that follows on a packet from `dstart` on returns. -/
theorem mergeRuns_place_live {dstart seqnum : ℤ} {before after : List Extent}
    {cur : Extent} {placed : Placement}
    (hlayout : Layout dstart (before ++ cur :: after))
    (hsettled : Settled dstart (before ++ cur :: after))
    (hhole : cur.filled = false) (hlive : dstart ≤ seqnum)
    (htakes : Takes cur seqnum 1000 placed) (hmax : seqnum < intMax)
    (hwindow : seqnum ≤ dstart + 63) :
    ∃ runs, mergeRuns dstart (refill before placed after) = some runs := by
  have hcur := hlayout.run_ok cur (by simp)
  have hbounds := htakes.bounds hcur
  have hcurLive : dstart ≤ cur.firstSeq := by
    have := hcur.side
    omega
  have hrefill := hlayout.place hhole htakes hmax hwindow
  have hapart := staleApart_refill hlayout hsettled hcurLive htakes
  have hnode : placed.node ∈ refill before placed after := by simp [refill]
  generalize refill before placed after = runs at hrefill hapart hnode ⊢
  cases runs with
  | nil => exact absurd rfl hrefill.nonempty
  | cons first rest =>
      refine mergeRuns_returns hrefill ?_ hapart
      exact hrefill.head_live hnode (by rw [htakes.node.1]; exact hlive)

/-! ## Delivered runs -/

/-- The walk passes through a settled stretch. -/
theorem walk_through {dstart : ℤ} {last : Extent} {tail : List Extent}
    (mid : List Extent) :
    ∀ (before : List Extent) (current : Extent),
      Settled dstart (current :: (mid ++ [last])) →
      walk dstart before current .arrived (mid ++ last :: tail) =
        walk dstart (before ++ current :: mid) last .arrived tail := by
  induction mid with
  | nil =>
      intro before current hsettled
      have hpair := (List.isChain_cons_cons.1 hsettled).1
      rw [List.nil_append, walk, if_neg (by simp [hpair.1]),
        if_neg (by simp [hpair.2])]
  | cons next mid ih =>
      intro before current hsettled
      have hpair := List.isChain_cons_cons.1 hsettled
      rw [List.cons_append, walk, if_neg (by simp [hpair.1.1]),
        if_neg (by simp [hpair.1.2]), ih _ _ hpair.2, List.append_assoc]
      rfl

theorem mergeRuns_concat {dstart : ℤ} {before : List Extent} {last : Extent}
    (run : Extent) (hsettled : Settled dstart (before ++ [last])) :
    mergeRuns dstart (before ++ [last] ++ [run]) =
      walk dstart before last .arrived [run] := by
  cases before with
  | nil => rfl
  | cons first before =>
      rw [List.append_assoc]
      exact walk_through before [] first hsettled

section Deliver

variable {dstart : ℤ} {cur : Extent} {rest : List Extent}
  (hlayout : Layout dstart (cur :: rest)) (hfirst : cur.firstSeq = dstart)
  (hsettled : Settled dstart (cur :: rest)) (hfilled : cur.filled = true)

include hlayout hfirst in
theorem firstSeq_ne_of_mem_rest {run : Extent} (hrun : run ∈ rest) :
    run.firstSeq ≠ dstart := by
  have hpairs := List.rel_of_pairwise_cons hlayout.pairwise hrun
  have hordered := (hlayout.run_ok run (List.mem_cons_of_mem _ hrun)).ordered
  have hordered' := (hlayout.run_ok cur (by simp)).ordered
  omega

include hlayout hfirst hsettled

/-- Behind a run at `dstart` no two holes are neighbours. -/
theorem settled_deliver : Settled (cur.lastSeq + 1) rest := by
  have hchain : rest.IsChain fun run next =>
      followsOn run next = false ∧ sparesHoles dstart run next = false :=
    hsettled.tail
  refine hchain.imp_of_mem_imp fun run next hrun hnext hpair => ?_
  refine ⟨hpair.1, ?_⟩
  have hrun := firstSeq_ne_of_mem_rest hlayout hfirst hrun
  have hnext := firstSeq_ne_of_mem_rest hlayout hfirst hnext
  have hspare := hpair.2
  rw [Bool.eq_false_iff, ne_eq, sparesHoles_iff] at hspare ⊢
  exact fun h => hspare ⟨h.1, h.2.1, hrun.symm, hnext.symm⟩

include hfilled in
/-- The run behind a filled run at `dstart` is stale or a hole. -/
theorem stale_or_hole_of_next {next : Extent} (hnext : next ∈ rest.head?) :
    next.lastSeq < dstart ∨
      next.firstSeq = cur.lastSeq + 1 ∧ next.filled = false := by
  cases rest with
  | nil => cases hnext
  | cons other rest =>
      simp only [List.head?_cons, Option.mem_some_iff] at hnext
      subst hnext
      have hpair := (List.isChain_cons_cons.1 hsettled).1.1
      have hlayout' : Layout dstart ([] ++ cur :: other :: rest) := hlayout
      obtain ⟨-, -, hadj⟩ := hlayout'.pair
      rcases hadj.1 hfirst.ge with h | h
      · right
        refine ⟨h, ?_⟩
        rw [Bool.eq_false_iff]
        intro hother
        rw [Bool.eq_false_iff, ne_eq, followsOn_iff] at hpair
        exact hpair ⟨by omega, by rw [hfilled, hother]⟩
      · exact .inl h

omit hsettled in
/-- The last run is followed on by the delivered one exactly when it is a stale
hole. -/
theorem followsOn_delivered_iff {last : Extent} (hlast : last ∈ rest.getLast?) :
    followsOn last { cur with filled := false } = true ↔
      last.filled = false ∧ last.lastSeq < dstart := by
  have hmem := List.mem_of_mem_getLast? hlast
  have hrun := hlayout.run_ok last (List.mem_cons_of_mem _ hmem)
  have hordered := hrun.ordered
  have hadj : Adjoins dstart last (edge dstart) := by
    have hchain := hlayout.chain.tail
    rw [List.tail_cons, List.isChain_append] at hchain
    refine hchain.2.2 last ?_ (edge dstart) (by simp)
    rw [List.getLast?_cons]
    simpa using congrArg some (Option.getD_eq_iff.mpr (.inl hlast))
  rw [followsOn_iff]
  constructor
  · rintro ⟨hnumber, hkind⟩
    exact ⟨hkind, by simp only at hnumber; omega⟩
  · rintro ⟨hhole, hstale⟩
    have hnext := (hadj.2 (by omega)).2 hhole
    simp only [edge] at hnext
    exact ⟨by simp only; omega, hhole⟩

include hfilled

/-- Where the last run is a stale hole, the walk takes in the delivered run and
stops there only if `head` points to a filled run. -/
theorem walk_stale_delivered {last : Extent} {before : List Extent}
    (hrest : rest = before ++ [last]) (hhole : last.filled = false)
    (hstale : last.lastSeq < dstart) :
    walk (cur.lastSeq + 1) before last .arrived
        [{ cur with filled := false }] = none ↔
      ∃ next ∈ rest.head?, next.filled = false := by
  have hordered := (hlayout.run_ok cur (by simp)).ordered
  have hlast := (hlayout.run_ok last (by simp [hrest])).ordered
  have hmem : last ∈ rest.getLast? := by simp [hrest]
  have hfollow :=
    (followsOn_delivered_iff hlayout hfirst hmem).2 ⟨hhole, hstale⟩
  rw [walk, if_pos ⟨by simp, hfollow⟩, walk]
  cases before with
  | nil =>
      have hself : sparesHoles (cur.lastSeq + 1)
          (mergeFollowing last { cur with filled := false })
          (mergeFollowing last { cur with filled := false }) = true := by
        rw [sparesHoles_iff]
        simp only [mergeFollowing_filled, mergeFollowing_firstSeq]
        exact ⟨hhole, hhole, by omega, by omega⟩
      simp [hrest, firstRun, hself, hhole]
  | cons first before =>
      have hhead : first ∈ rest.head? := by simp [hrest]
      have hnext := stale_or_hole_of_next hlayout hfirst hsettled hfilled hhead
      have hfirstRun := (hlayout.run_ok first (by simp [hrest])).ordered
      have hlink : followsOn (mergeFollowing last { cur with filled := false })
            first = true ∨
          sparesHoles (cur.lastSeq + 1)
            (mergeFollowing last { cur with filled := false }) first = true ↔
          first.filled = false := by
        rw [followsOn_iff, sparesHoles_iff]
        simp only [mergeFollowing_lastSeq, mergeFollowing_filled,
          mergeFollowing_firstSeq, hhole]
        constructor
        · rintro (⟨-, h⟩ | ⟨-, h, -⟩)
          · exact h.symm
          · exact h
        · intro h
          rcases hnext with hbelow | ⟨hnumber, -⟩
          · exact .inr ⟨trivial, h, by omega, by omega⟩
          · exact .inl ⟨by omega, h.symm⟩
      simp [hrest, firstRun, hlink]

omit hsettled in
/-- Where the last run is not a stale hole, the walk comes to its end. -/
theorem walk_live_delivered {last : Extent} {before : List Extent}
    (hrest : rest = before ++ [last])
    (hnot : ¬ (last.filled = false ∧ last.lastSeq < dstart)) :
    ∃ runs, walk (cur.lastSeq + 1) before last .arrived
      [{ cur with filled := false }] = some runs := by
  have hfollow : followsOn last { cur with filled := false } = false := by
    rw [Bool.eq_false_iff]
    intro h
    exact hnot ((followsOn_delivered_iff hlayout hfirst
      (by simp [hrest])).1 h)
  rw [walk, if_neg (by simp [hfollow])]
  split
  · rename_i hspare
    obtain ⟨hhole, -, hne, -⟩ := sparesHoles_iff.1 hspare
    have hdeliver := hlayout.deliver hfilled hfirst
    have hlive : cur.lastSeq + 1 ≤ last.firstSeq := by
      have hpairs := List.rel_of_pairwise_cons hlayout.pairwise
        (show last ∈ rest by simp [hrest])
      rcases hpairs with hstale | ⟨-, hbehind⟩
      · exact absurd ⟨hhole, hstale⟩ hnot
      · exact hbehind
    rw [walk, if_neg]
    · exact ⟨_, rfl⟩
    · rintro (⟨hphase, -⟩ | ⟨-, hclosing⟩)
      · cases hphase
      · have hstart := (sparesHoles_iff.1 hclosing).2.2.2
        cases before with
        | nil =>
            rw [hrest] at hdeliver
            exact hne (hdeliver.head_live (by simp) hlive).symm
        | cons first before =>
            rw [hrest] at hdeliver
            exact hstart (hdeliver.head_live
              (show last ∈ _ by simp) hlive).symm
  · rw [walk]
    simp

/-- The merge that follows on a delivery runs for ever exactly when the last
run of the ring is a stale hole and the run behind `head` is a hole. -/
theorem mergeRuns_deliver_eq_none_iff :
    mergeRuns (cur.lastSeq + 1) (rest ++ [{ cur with filled := false }]) =
        none ↔
      ∃ next ∈ rest.head?, ∃ last ∈ rest.getLast?, next.filled = false ∧
        last.filled = false ∧ last.lastSeq < dstart := by
  rcases List.eq_nil_or_concat rest with hnil | ⟨before, last, hrest⟩
  · subst hnil
    simp [mergeRuns, walk]
  · rw [List.concat_eq_append] at hrest
    have hthrough := settled_deliver hlayout hfirst hsettled
    rw [hrest] at hthrough
    have hmerge := mergeRuns_concat { cur with filled := false } hthrough
    by_cases hstale : last.filled = false ∧ last.lastSeq < dstart
    · have hwalk := walk_stale_delivered hlayout hfirst hsettled hfilled hrest
        hstale.1 hstale.2
      rw [← hmerge, ← hrest] at hwalk
      rw [hwalk]
      simp [hrest, hstale]
    · obtain ⟨runs, hwalk⟩ := walk_live_delivered hlayout hfirst hfilled
        hrest hstale
      rw [← hmerge, ← hrest] at hwalk
      rw [hwalk]
      simp only [reduceCtorEq, false_iff]
      rintro ⟨next, -, last', hlast, -, hstale'⟩
      simp only [hrest, List.getLast?_concat, Option.mem_some_iff] at hlast
      exact hstale (hlast ▸ hstale')

end Deliver

/-! ## Where a packet is put -/

/-- The search puts a packet into the first run at which it stops, if that is
a hole. -/
theorem seek_eq_placed_iff {dstart seqnum : ℤ} (hone : 1 ≤ dstart)
    {runs found after : List Extent} {placed : Placement} :
    seek dstart seqnum 1000 [] runs = some (.placed found placed after) ↔
      ∃ run, runs = found ++ run :: after ∧
        (∀ other ∈ found, ¬ Stops other seqnum) ∧ Fits run seqnum ∧
        fillRun run seqnum 1000 = some placed ∧ dstart + 63 ≤ intMax ∧
        seqnum ≤ dstart + 63 := by
  constructor
  · intro hseek
    obtain ⟨_, _, -, -, -, hwindow, -⟩ := seek_placed hseek
    rcases seek_cases hone hwindow hseek with
      hanswer | ⟨before, run, rest, rfl, hbefore,
        ⟨-, -, -, hanswer⟩ | ⟨hfits, hmax, placed', hfill, hanswer⟩⟩
    · cases hanswer
    · cases hanswer
    · cases hanswer
      exact ⟨run, rfl, hbefore, hfits, hfill, hmax, hwindow⟩
  · rintro ⟨run, rfl, hbefore, hfits, hfill, hmax, hwindow⟩
    exact seek_eq_placed hone hwindow hbefore hmax hfits hfill

/-! ## Sessions -/

/-- The calls in which `mergeList` runs for ever: a late packet closes the
ring, or a delivery meets a stale hole at the end of the ring and a hole behind
`head`. -/
inductive RunsOn (r : RingBuffer) : Call → Prop where
  | late (before after : List Extent) (run : Extent) (placed : Placement)
      (seqnum : ℤ) :
      r.runs = before ++ run :: after →
      (∀ other ∈ before, ¬ Stops other seqnum) →
      Fits run seqnum → fillRun run seqnum 1000 = some placed →
      r.dstart + 63 ≤ intMax → seqnum < r.dstart →
      closesRing (refill before placed after) = true →
      RunsOn r (.addData seqnum)
  | delivered (cur next last : Extent) (rest : List Extent) (size : ℤ) :
      r.runs = cur :: rest → cur.filled = true → cur.firstSeq = r.dstart →
      cur.size ≤ size → next ∈ rest.head? → last ∈ rest.getLast? →
      next.filled = false → last.filled = false → last.lastSeq < r.dstart →
      RunsOn r (.requestData size)

section Session

variable {s : SBuffer} (hmerged : Merged s)
  (hlayout : Layout s.dstart s.toRing.runs)

include hmerged hlayout

theorem Merged.addData_finishes_iff {seqnum : ℤ}
    (hoff : OffSentinel s.dstart seqnum) :
    MergesFinish s (.addData seqnum) ↔ ¬ RunsOn s.toRing (.addData seqnum) := by
  have hsettled := hmerged.sound.settled
  rw [hmerged.mergesFinish_addData_iff]
  constructor
  · rintro hfinish (⟨before, after, run, placed, _, hruns, hbefore, hfits,
      hfill, hover, hlate, hcloses⟩ | _)
    have hwindow : seqnum ≤ s.toRing.dstart + 63 := by omega
    have hseek := (seek_eq_placed_iff hlayout.one_le).2
      ⟨run, hruns, hbefore, hfits, hfill, hover, hwindow⟩
    obtain ⟨runs, hreturns⟩ := hfinish before placed after hseek
    have htakes := takes_of_fillRun hfits.1 hfill (filled_of_fits hfits hfill)
    have hstale : run.firstSeq < s.toRing.dstart := by
      have := (htakes.bounds (hlayout.run_ok run (by simp [hruns]))).1
      omega
    rw [hruns] at hlayout hsettled
    have hnone := (mergeRuns_eq_none_iff (by simp [refill])
      (joins_refill hlayout hsettled hfits.1 hstale htakes)).2 hcloses
    cases hnone.symm.trans hreturns
  · intro hnot before placed after hseek
    obtain ⟨run, hruns, hbefore, hfits, hfill, hover, hwindow⟩ :=
      (seek_eq_placed_iff hlayout.one_le).1 hseek
    have htakes := takes_of_fillRun hfits.1 hfill (filled_of_fits hfits hfill)
    have hrun := hlayout.run_ok run (by simp [hruns])
    have hbounds := htakes.bounds hrun
    have hmax := hoff.lt_intMax hrun htakes hwindow
    have hlayout' := hlayout
    rw [hruns] at hsettled hlayout'
    rcases lt_or_ge seqnum s.dstart with hlate | hlive
    · rw [← Option.ne_none_iff_exists', ne_eq, mergeRuns_eq_none_iff
        (by simp [refill])
        (joins_refill hlayout' hsettled hfits.1 (by omega) htakes)]
      exact fun hcloses => hnot (.late before after run placed seqnum hruns
        hbefore hfits hfill hover hlate hcloses)
    · exact mergeRuns_place_live hlayout' hsettled hfits.1 hlive htakes hmax
        hwindow

theorem Merged.requestData_finishes_iff (size : ℤ) :
    MergesFinish s (.requestData size) ↔
      ¬ RunsOn s.toRing (.requestData size) := by
  have hsettled := hmerged.sound.settled
  rw [hmerged.mergesFinish_requestData_iff]
  constructor
  · rintro hfinish (_ | ⟨cur, next, last, rest, _, hruns, hfilled, hfirst,
      hsize, hnext, hlast, hhole, hhole', hstale⟩)
    have hstored := (hlayout.run_ok cur (by simp [hruns])).stored hfilled
    have hone := hlayout.one_le
    have hordered := (hlayout.run_ok cur (by simp [hruns])).ordered
    have hnumber : signedInt (cur.lastSeq + 1) = some (cur.lastSeq + 1) := by
      rw [signedInt, if_pos]
      rw [intMax] at hstored
      have hfirst' : cur.firstSeq = s.dstart := hfirst
      omega
    obtain ⟨runs, hreturns⟩ :=
      hfinish cur rest _ hruns hfilled hfirst hsize hnumber
    rw [hruns] at hlayout hsettled
    have hnone := (mergeRuns_deliver_eq_none_iff hlayout hfirst hsettled
      hfilled).2 ⟨next, hnext, last, hlast, hhole, hhole', hstale⟩
    cases hnone.symm.trans hreturns
  · intro hnot cur rest dstart hruns hfilled hfirst hsize hnumber
    obtain ⟨rfl, -⟩ := signedInt_eq_some.1 hnumber
    rw [hruns] at hlayout hsettled
    rw [← Option.ne_none_iff_exists', ne_eq,
      mergeRuns_deliver_eq_none_iff hlayout hfirst hsettled hfilled]
    rintro ⟨next, hnext, last, hlast, hhole, hhole', hstale⟩
    exact hnot (.delivered cur next last rest size hruns hfilled hfirst hsize
      hnext hlast hhole hhole' hstale)

end Session

/-- In every session without the sentinel number, `mergeList` comes to its end
in the next call exactly when that is not one of the calls that run on; and the
call has no result exactly when it is one of them, copies outside the buffer or
overflows a number. -/
theorem mergesFinish_iff (payload : ℤ → Payload) (t : Session)
    (hreach : ((receiver payload).restrict noSentinel).Reachable t) (c : Call)
    (hcall : noSentinel t c) :
    (MergesFinish t.sbuffer c ↔ ¬ RunsOn t.sbuffer.toRing c) ∧
      (t.call payload c = none ↔ RunsOn t.sbuffer.toRing c ∨
        ¬ CopiesInBuffer payload t.sbuffer c ∨
        Overflows t.sbuffer.toRing c) := by
  have hmerged := merged_reachable hreach.of_restrict
  have hlayout := layout_reachable hreach
  have hfinish : MergesFinish t.sbuffer c ↔ ¬ RunsOn t.sbuffer.toRing c := by
    cases c with
    | addData seqnum => exact hmerged.addData_finishes_iff hlayout hcall
    | requestData size => exact hmerged.requestData_finishes_iff hlayout size
  refine ⟨hfinish, ?_⟩
  rw [hmerged.call_eq_none_iff, hfinish, not_not]

/-- Packet 1 has arrived and been delivered.  Packet 2 now splits the hole at
`head`, and the merge joins what is left of it to the recycled hole. -/
theorem mergesFinish_iff_recycled :
    ∃ t, ((receiver numbered).restrict noSentinel).Reachable t ∧
      t.sbuffer.toRing.runs =
        [⟨2, 64, 1000, 63000, false⟩, ⟨1, 1, 0, 1000, false⟩] ∧
      MergesFinish t.sbuffer (.addData 2) ∧
      (t.call numbered (.addData 2) = none ↔
        RunsOn t.sbuffer.toRing (.addData 2) ∨
          ¬ CopiesInBuffer numbered t.sbuffer (.addData 2) ∨
          Overflows t.sbuffer.toRing (.addData 2)) := by
  obtain ⟨_, _, _, t, hreach, hring, -, -⟩ := reaches_recycled numbered
    noSentinel (fun _ _ hsentinel => by cases hsentinel) fun _ _ => trivial
  have hiff := mergesFinish_iff numbered t hreach (.addData 2)
    (fun hsentinel => by cases hsentinel)
  refine ⟨t, hreach, congrArg RingBuffer.runs hring, hiff.1.2 ?_, hiff.2⟩
  rw [hring]
  rintro (⟨-, -, -, -, -, -, -, -, -, -, hlate, -⟩ | _)
  exact lt_irrefl (2 : ℤ) hlate

/-- Packets 1, 64 and 2 arrive, 1 and 2 are delivered one by one.  The hole of
packet 1 stays at the end of the ring and is joined by that of packet 2 and by
the one that `head` then points to. -/
theorem not_mergesFinish :
    ¬ ∀ (payload : ℤ → Payload) (t : Session),
      (receiver payload).Reachable t → ∀ c, MergesFinish t.sbuffer c := by
  intro hclaim
  have h : Reaches numbered anyCall RingBuffer.initHead [] [] := reaches_start
  obtain ⟨_, _, -, h⟩ := h.store 1 (fun _ _ => trivial) rfl (by decide) rfl
  have h := h.deliver 1000 (fun _ _ => trivial) rfl rfl rfl (by decide)
    (by decide) (by decide) rfl
  obtain ⟨_, _, -, h⟩ := h.store 64 (fun _ _ => trivial) rfl (by decide) rfl
  obtain ⟨_, _, -, h⟩ := h.store 2 (fun _ _ => trivial) rfl (by decide) rfl
  obtain ⟨t, hreach, hring, -, -⟩ := h
  have hruns : t.sbuffer.toRing.runs =
      [⟨2, 2, 1000, 1000, true⟩, ⟨3, 63, 2000, 61000, false⟩,
        ⟨64, 64, 63000, 1000, true⟩, ⟨1, 1, 0, 1000, false⟩] :=
    congrArg RingBuffer.runs hring
  have hdstart : t.sbuffer.dstart = 2 := congrArg RingBuffer.dstart hring
  have hfinish := hclaim numbered t hreach.of_restrict (.requestData 1000)
  rw [(merged_reachable hreach.of_restrict).mergesFinish_requestData_iff]
    at hfinish
  obtain ⟨runs, hmerge⟩ := hfinish _ _ 3 hruns rfl hdstart.symm le_rfl rfl
  cases hmerge

end UdpTransfer.Receiver
