import UdpTransfer.Receiver.Coverage

/-!
# Packets that arrive again

Whether a packet that was acknowledged once is acknowledged again depends on
the first run of the ring at which the search of `addData` stops.  A filled run
stops it only by its first number, so a packet inside a longer run is not found.
A hole stops it that can take the packet, which happens to a delivered number
whose place has been recycled: then the packet is stored once more.
-/

namespace UdpTransfer.Receiver

open UdpTransfer.Memory
open UdpTransfer.Runs
open SBuffer

/-- The hole can take a packet numbered `seqnum`. -/
def Fits (run : Extent) (seqnum : ℤ) : Prop :=
  run.filled = false ∧
    (run.firstSeq = seqnum ∧ 1000 ≤ run.size ∨
      run.firstSeq < seqnum ∧ seqnum ≤ run.lastSeq)

/-- The search of `addData` stops at `run`. -/
def Stops (run : Extent) (seqnum : ℤ) : Prop :=
  run.filled = true ∧ run.firstSeq = seqnum ∨ Fits run seqnum

/-- The last run follows on from the one in front of it, and the run at `head`
follows on from the last. -/
def closesOn (first : Extent) : List Extent → Bool
  | [] => false
  | [_] => false
  | [pred, last] => followsOn pred last && followsOn last first
  | _ :: run :: next :: rest => closesOn first (run :: next :: rest)

def closesRing (runs : List Extent) : Bool :=
  runs.head?.any fun first => closesOn first runs

theorem fillRun_of_not_fits {run : Extent} {seqnum : ℤ}
    (hhole : run.filled = false) (hfits : ¬ Fits run seqnum) :
    fillRun run seqnum 1000 = some { front := [], node := run, back := [] } := by
  rw [Fits] at hfits
  simp only [hhole, true_and, not_or, not_and, not_le] at hfits
  rw [fillRun]
  split
  · rename_i hfirst
    have := hfits.1 hfirst
    rw [if_neg (by omega), if_neg (by omega)]
  · rw [if_neg (by rintro ⟨h1, h2⟩; have := hfits.2 h1; omega),
      if_neg (by rintro ⟨h1, h2⟩; have := hfits.2 h1; omega)]

theorem filled_of_fits {run : Extent} {seqnum : ℤ} {placed : Placement}
    (hfits : Fits run seqnum) (hfill : fillRun run seqnum 1000 = some placed) :
    placed.node.filled = true := by
  obtain ⟨hhole, hrange⟩ := hfits
  rw [fillRun] at hfill
  split at hfill
  · split at hfill
    · rw [Option.map_eq_some_iff] at hfill
      obtain ⟨number, -, rfl⟩ := hfill
      rfl
    · split at hfill
      · cases hfill
        rfl
      · omega
  · split at hfill
    · cases hfill
      rfl
    · split at hfill
      · cases hfill
        rfl
      · omega

/-- One round of the search, at a run where it does not stop. -/
theorem seek_pass {dstart seqnum : ℤ} {before after : List Extent}
    {run : Extent} (hstops : ¬ Stops run seqnum)
    (hlimit : signedInt (dstart + 63) = some (dstart + 63))
    (hwindow : seqnum ≤ dstart + 63) :
    seek dstart seqnum 1000 before (run :: after) =
      seek dstart seqnum 1000 (before ++ [run]) after := by
  simp only [Stops, not_or, not_and] at hstops
  rw [seek, if_neg (by rintro ⟨h1, h2⟩; exact hstops.1 h2 h1), hlimit,
    Option.bind_some, if_neg (by omega)]
  split
  · rename_i hhole
    rw [fillRun_of_not_fits hhole hstops.2, Option.bind_some,
      if_neg (by simp [hhole])]
  · rfl

theorem seek_skip {dstart seqnum : ℤ} {after : List Extent}
    (hlimit : signedInt (dstart + 63) = some (dstart + 63))
    (hwindow : seqnum ≤ dstart + 63) (mid : List Extent) :
    ∀ before, (∀ run ∈ mid, ¬ Stops run seqnum) →
      seek dstart seqnum 1000 before (mid ++ after) =
        seek dstart seqnum 1000 (before ++ mid) after := by
  induction mid with
  | nil => simp
  | cons run mid ih =>
      intro before hmid
      rw [List.forall_mem_cons] at hmid
      rw [List.cons_append, seek_pass hmid.1 hlimit hwindow, ih _ hmid.2]
      simp

theorem seek_found {dstart seqnum : ℤ} {before after : List Extent}
    {run : Extent} (hfilled : run.filled = true)
    (hfirst : run.firstSeq = seqnum) :
    seek dstart seqnum 1000 before (run :: after) = some .duplicate := by
  rw [seek, if_pos ⟨hfirst, hfilled⟩]

theorem seek_fits {dstart seqnum : ℤ} {before after : List Extent}
    {run : Extent} (hfits : Fits run seqnum)
    (hlimit : signedInt (dstart + 63) = some (dstart + 63))
    (hwindow : seqnum ≤ dstart + 63) :
    seek dstart seqnum 1000 before (run :: after) =
      (fillRun run seqnum 1000).map fun placed =>
        .placed before placed after := by
  rw [seek, if_neg (by simp [hfits.1]), hlimit, Option.bind_some,
    if_neg (by omega), if_pos hfits.1]
  cases hfill : fillRun run seqnum 1000 with
  | none => rfl
  | some placed =>
      rw [Option.bind_some, if_pos (filled_of_fits hfits hfill)]
      rfl

/-- Either the search passes every run, or there is a first run where it
stops. -/
theorem exists_stop (runs : List Extent) (seqnum : ℤ) :
    (∀ run ∈ runs, ¬ Stops run seqnum) ∨
      ∃ before run after, runs = before ++ run :: after ∧
        (∀ other ∈ before, ¬ Stops other seqnum) ∧ Stops run seqnum := by
  induction runs with
  | nil => simp
  | cons run runs ih =>
      by_cases hstops : Stops run seqnum
      · exact .inr ⟨[], run, runs, rfl, by simp, hstops⟩
      · rcases ih with hnone | ⟨before, other, after, rfl, hbefore, hother⟩
        · exact .inl (List.forall_mem_cons.2 ⟨hstops, hnone⟩)
        · exact .inr ⟨run :: before, other, after, rfl,
            List.forall_mem_cons.2 ⟨hstops, hbefore⟩, hother⟩

/-! ## When the merge closes the ring -/

/-- No two neighbours merge as spare holes, and only filled runs follow on. -/
def Joins (dstart : ℤ) (current next : Extent) : Prop :=
  sparesHoles dstart current next = false ∧
    (followsOn current next = true → current.filled = true)

theorem closesOn_congr {first first' : Extent} {runs : List Extent}
    (hfirst : first'.firstSeq = first.firstSeq)
    (hfilled : first'.filled = first.filled) :
    closesOn first' runs = closesOn first runs := by
  induction runs using closesOn.induct with
  | case1 => rfl
  | case2 => rfl
  | case3 pred last => simp only [closesOn, followsOn, hfirst, hfilled]
  | case4 run next other rest ih => simpa only [closesOn] using ih

theorem closesOn_absorb {first current next : Extent} {rest : List Extent}
    (hrest : rest ≠ []) (hfollow : followsOn current next = true) :
    closesOn first (current :: next :: rest) =
      closesOn first (mergeFollowing current next :: rest) := by
  have hfilled := (followsOn_iff.1 hfollow).2
  match rest with
  | [] => exact absurd rfl hrest
  | [last] =>
      simp only [closesOn, followsOn, mergeFollowing_lastSeq,
        mergeFollowing_filled, hfilled]
  | last :: other :: rest => rfl

/-- Where only filled runs join, the walk fails to return exactly when it
would go on past the end of the ring. -/
theorem walk_eq_none_iff {dstart : ℤ} (after : List Extent) :
    ∀ (before : List Extent) (current : Extent) (phase : Phase),
      phase ≠ .spare → (phase = .following → current.filled = true) →
      (current :: after).IsChain (Joins dstart) →
      (walk dstart before current phase after = none ↔
        after = [] ∧ phase = .following ∧
            followsOn current (firstRun before current) = true ∨
          closesOn (firstRun before current) (current :: after) = true) := by
  induction after with
  | nil =>
      intro before current phase hspare hfilled _
      rw [walk]
      cases phase with
      | spare => exact absurd rfl hspare
      | arrived => simp [closesOn]
      | following =>
          have hnot : sparesHoles dstart current (firstRun before current) =
              false := by
            simp [sparesHoles, hfilled rfl]
          simp [closesOn, hnot]
  | cons next after ih =>
      intro before current phase hspare hfilled hchain
      rw [List.isChain_cons_cons] at hchain
      obtain ⟨⟨hnoSpare, hjoin⟩, hrest⟩ := hchain
      rw [walk]
      by_cases hfollow : followsOn current next = true
      · have hcurrent := hjoin hfollow
        obtain ⟨hlast, hkinds⟩ := followsOn_iff.1 hfollow
        rw [if_pos ⟨hspare, hfollow⟩,
          ih before (mergeFollowing current next) .following (by simp)
            (fun _ => hcurrent) ?_]
        · have hfirst : (firstRun before
                (mergeFollowing current next)).firstSeq =
                (firstRun before current).firstSeq ∧
              (firstRun before (mergeFollowing current next)).filled =
                (firstRun before current).filled := by
            cases before <;> exact ⟨rfl, rfl⟩
          rw [closesOn_congr hfirst.1 hfirst.2]
          cases after with
          | nil =>
              simp [closesOn, followsOn, hfirst.1, hfirst.2, hkinds, hlast]
          | cons other after =>
              simp [closesOn_absorb (List.cons_ne_nil other after) hfollow]
        · cases after with
          | nil => exact List.isChain_singleton _
          | cons other after =>
              rw [List.isChain_cons_cons] at hrest ⊢
              refine ⟨⟨?_, fun _ => hcurrent⟩, hrest.2⟩
              simp [sparesHoles, hcurrent]
      · rw [if_neg (by simp [hfollow]), if_neg (by simp [hnoSpare]),
          ih _ next .arrived (by simp) (by simp) hrest]
        have hfirst : firstRun (before ++ [current]) next =
            firstRun before current := by
          cases before <;> rfl
        rw [hfirst]
        cases after with
        | nil => simp [closesOn, hfollow]
        | cons other after => simp [closesOn]

theorem mergeRuns_eq_none_iff {dstart : ℤ} {runs : List Extent}
    (hne : runs ≠ []) (hchain : runs.IsChain (Joins dstart)) :
    mergeRuns dstart runs = none ↔ closesRing runs = true := by
  cases runs with
  | nil => exact absurd rfl hne
  | cons current after =>
      rw [mergeRuns, walk_eq_none_iff after [] current .arrived (by simp)
        (by simp) hchain]
      simp [closesRing, firstRun]

/-- Putting a late packet into a settled ring makes nothing join but the
packet and its neighbours. -/
theorem joins_refill {dstart seqnum : ℤ} {before after : List Extent}
    {cur : Extent} {placed : Placement}
    (hlayout : Layout dstart (before ++ cur :: after))
    (hsettled : Settled dstart (before ++ cur :: after))
    (hhole : cur.filled = false) (hstale : cur.firstSeq < dstart)
    (htakes : Takes cur seqnum 1000 placed) :
    (refill before placed after).IsChain (Joins dstart) := by
  have hjoins : ∀ run next : Extent,
      followsOn run next = false ∧ sparesHoles dstart run next = false →
      Joins dstart run next := fun run next h => ⟨h.2, by simp [h.1]⟩
  have hsplit : (before ++ ([cur] ++ after)).IsChain fun current next =>
      followsOn current next = false ∧
        sparesHoles dstart current next = false := by
    simpa [Settled] using hsettled
  have hadj : ∀ next ∈ after.head?, next.filled = true := by
    intro next hnext
    cases after with
    | nil => simp at hnext
    | cons other after =>
        simp only [List.head?_cons, Option.mem_some_iff] at hnext
        subst hnext
        obtain ⟨-, -, hadj⟩ := hlayout.pair
        by_contra hnot
        have hother : other.filled = false := by simpa using hnot
        have hfollow : followsOn cur other = true := by
          rw [followsOn_iff]
          exact ⟨by have := (hadj.2 hstale).2 hhole; omega,
            by rw [hhole, hother]⟩
        rw [isChain_block (by simp)] at hsplit
        have := (hsplit.2.2.2.2 cur (by simp) other (by simp)).1
        rw [hfollow] at this
        cases this
  rw [isChain_block (by simp)] at hsplit
  obtain ⟨hbefore, -, hafter, hfront, hback⟩ := hsplit
  have hregroup : refill before placed after =
      before ++ ((placed.front ++ placed.node :: placed.back) ++ after) := by
    simp [refill]
  have hnode := htakes.node.2.2.2
  have hlast : cur.filled = false → ∀ next ∈ after.head?,
      ∀ run : Extent, run.filled = false → Joins dstart run next := by
    intro _ next hnext run hrun
    have := hadj next hnext
    exact ⟨by simp [sparesHoles, this], by simp [followsOn, hrun, this]⟩
  have hnodeBack : ∀ next : Extent, Joins dstart placed.node next :=
    fun next => ⟨by simp [sparesHoles, hnode], fun _ => hnode⟩
  have hnodeFront : ∀ run : Extent, Joins dstart run placed.node := by
    intro run
    refine ⟨by simp [sparesHoles, hnode], fun hfollow => ?_⟩
    rw [(followsOn_iff.1 hfollow).2, hnode]
  rw [hregroup, isChain_block (by simp)]
  refine ⟨hbefore.imp hjoins, ?_, hafter.imp hjoins, ?_, ?_⟩
  · cases htakes with
    | beginning hfirst hsize _ => simpa using hnodeBack _
    | whole hfirst hsize => simp
    | middle hfirst hend => simpa using ⟨hnodeFront _, hnodeBack _⟩
    | ending hfirst hend => simpa using hnodeFront _
  · intro run hrun piece hpiece
    have hcur := hfront run hrun cur (by simp)
    cases htakes with
    | beginning hfirst hsize _ =>
        cases hpiece
        exact hnodeFront run
    | whole hfirst hsize =>
        cases hpiece
        exact hnodeFront run
    | middle hfirst hend =>
        cases hpiece
        exact hjoins _ _ hcur
    | ending hfirst hend =>
        cases hpiece
        exact hjoins _ _ hcur
  · intro piece hpiece next hnext
    cases htakes with
    | beginning hfirst hsize _ =>
        cases hpiece
        exact hlast hhole next hnext _ rfl
    | whole hfirst hsize =>
        cases hpiece
        exact hnodeBack next
    | middle hfirst hend =>
        cases hpiece
        exact hlast hhole next hnext _ rfl
    | ending hfirst hend =>
        cases hpiece
        exact hnodeBack next

/-! ## Sessions -/

/-- Another `addData` of `seqnum` returns nonzero and changes no byte that is
still to be delivered. -/
def Reacknowledged (payload : ℤ → Payload) (s : SBuffer) (seqnum : ℤ) : Prop :=
  ∃ result s', s.addData seqnum 1000 (payload seqnum).toList =
      some (result, s') ∧ result ≠ 0 ∧
    ∀ run ∈ s.toRing.runs, run.filled = true → s.dstart ≤ run.firstSeq →
      ∀ j : ℤ, 0 ≤ j → j < run.size →
        circ 64000 s'.buffer (run.data + j) = circ 64000 s.buffer (run.data + j)

/-- The condition: the first run at which the search stops is the one that
starts with `seqnum`, or a hole where the packet does no harm and does not
close the ring. -/
inductive FoundAgain (payload : ℤ → Payload) (r : RingBuffer) (seqnum : ℤ) :
    Prop where
  | duplicate (before after : List Extent) (run : Extent) :
      r.runs = before ++ run :: after →
      (∀ other ∈ before, ¬ Stops other seqnum) →
      (before ≠ [] → r.dstart + 63 ≤ intMax) →
      run.filled = true → run.firstSeq = seqnum →
      FoundAgain payload r seqnum
  | recycled (before after : List Extent) (run : Extent)
      (placed : Placement) :
      r.runs = before ++ run :: after →
      (∀ other ∈ before, ¬ Stops other seqnum) →
      r.dstart + 63 ≤ intMax →
      Fits run seqnum → fillRun run seqnum 1000 = some placed →
      0 ≤ placed.node.data → placed.node.data ≤ 64000 →
      Harmless r placed.node (payload seqnum).toList →
      closesRing (refill before placed after) = false →
      FoundAgain payload r seqnum

theorem seek_overflow {dstart seqnum : ℤ} {before after : List Extent}
    {run : Extent} (hlimit : signedInt (dstart + 63) = none)
    (hrun : ¬ (run.filled = true ∧ run.firstSeq = seqnum)) :
    seek dstart seqnum 1000 before (run :: after) = none := by
  rw [seek, if_neg (by rintro ⟨h1, h2⟩; exact hrun ⟨h2, h1⟩), hlimit]
  rfl

theorem signedInt_window {dstart : ℤ} (hone : 1 ≤ dstart) :
    signedInt (dstart + 63) =
      if dstart + 63 ≤ intMax then some (dstart + 63) else none := by
  by_cases hmax : dstart + 63 ≤ intMax
  · rw [if_pos hmax, signedInt, if_pos (by rw [intMax] at hmax; omega)]
  · rw [if_neg hmax, signedInt, if_neg (by rw [intMax] at hmax; omega)]

/-! ## The answer of the search -/

section Seek

variable {dstart seqnum : ℤ} {runs before after : List Extent} {run : Extent}

/-- Past the first run the search needs `dstart + 63`. -/
theorem window_of_seek {answer : Answer} (hone : 1 ≤ dstart)
    (hseek : seek dstart seqnum 1000 before (run :: after) = some answer)
    (hrun : ¬ (run.filled = true ∧ run.firstSeq = seqnum)) :
    dstart + 63 ≤ intMax := by
  by_contra hover
  have hlimit := signedInt_window hone
  rw [if_neg hover] at hlimit
  rw [seek_overflow hlimit hrun] at hseek
  cases hseek

theorem seek_eq_rejected (hlimit : signedInt (dstart + 63) = some (dstart + 63))
    (hwindow : seqnum ≤ dstart + 63)
    (hnone : ∀ other ∈ runs, ¬ Stops other seqnum) :
    seek dstart seqnum 1000 [] runs = some .rejected := by
  have hskip : seek dstart seqnum 1000 [] (runs ++ []) =
      seek dstart seqnum 1000 ([] ++ runs) [] :=
    seek_skip hlimit hwindow runs [] hnone
  rw [List.append_nil] at hskip
  rw [hskip]
  rfl

theorem seek_eq_duplicate (hone : 1 ≤ dstart) (hwindow : seqnum ≤ dstart + 63)
    (hbefore : ∀ other ∈ before, ¬ Stops other seqnum)
    (hmax : before ≠ [] → dstart + 63 ≤ intMax)
    (hfilled : run.filled = true) (hfirst : run.firstSeq = seqnum) :
    seek dstart seqnum 1000 [] (before ++ run :: after) =
      some .duplicate := by
  cases before with
  | nil => exact seek_found hfilled hfirst
  | cons other before =>
      have hlimit := signedInt_window hone
      rw [if_pos (hmax (by simp))] at hlimit
      rw [seek_skip hlimit hwindow _ [] hbefore]
      exact seek_found hfilled hfirst

theorem seek_eq_placed {placed : Placement} (hone : 1 ≤ dstart)
    (hwindow : seqnum ≤ dstart + 63)
    (hbefore : ∀ other ∈ before, ¬ Stops other seqnum)
    (hmax : dstart + 63 ≤ intMax) (hfits : Fits run seqnum)
    (hfill : fillRun run seqnum 1000 = some placed) :
    seek dstart seqnum 1000 [] (before ++ run :: after) =
      some (.placed before placed after) := by
  have hlimit := signedInt_window hone
  rw [if_pos hmax] at hlimit
  rw [seek_skip hlimit hwindow before [] hbefore,
    seek_fits hfits hlimit hwindow, hfill]
  rfl

/-- The first run at which the search stops gives the answer. -/
theorem seek_cases {answer : Answer} (hone : 1 ≤ dstart)
    (hwindow : seqnum ≤ dstart + 63)
    (hseek : seek dstart seqnum 1000 [] runs = some answer) :
    answer = .rejected ∨
      ∃ before run after, runs = before ++ run :: after ∧
        (∀ other ∈ before, ¬ Stops other seqnum) ∧
        (run.filled = true ∧ run.firstSeq = seqnum ∧
            (before ≠ [] → dstart + 63 ≤ intMax) ∧ answer = .duplicate ∨
          Fits run seqnum ∧ dstart + 63 ≤ intMax ∧
            ∃ placed, fillRun run seqnum 1000 = some placed ∧
              answer = .placed before placed after) := by
  have hlimit := signedInt_window hone
  rcases exists_stop runs seqnum with
    hnone | ⟨before, run, after, rfl, hbefore, hstops⟩
  · left
    cases runs with
    | nil =>
        cases hseek
        rfl
    | cons run rest =>
        have hrun := hnone run List.mem_cons_self
        rw [if_pos (window_of_seek hone hseek fun h => hrun (.inl h))] at hlimit
        rw [seek_eq_rejected hlimit hwindow hnone] at hseek
        exact (Option.some.inj hseek).symm
  · right
    have hmax : before ≠ [] → dstart + 63 ≤ intMax := by
      intro hne
      cases before with
      | nil => exact absurd rfl hne
      | cons other before =>
          exact window_of_seek hone hseek fun h =>
            hbefore other List.mem_cons_self (.inl h)
    refine ⟨before, run, after, rfl, hbefore, ?_⟩
    rcases hstops with ⟨hfilled, hfirst⟩ | hfits
    · rw [seek_eq_duplicate hone hwindow hbefore hmax hfilled hfirst] at hseek
      exact .inl ⟨hfilled, hfirst, hmax, (Option.some.inj hseek).symm⟩
    · have hover : dstart + 63 ≤ intMax := by
        cases before with
        | nil => exact window_of_seek hone hseek fun h => by simp [hfits.1] at h
        | cons other before => exact hmax (by simp)
      rw [if_pos hover] at hlimit
      rw [seek_skip hlimit hwindow before [] hbefore,
        seek_fits hfits hlimit hwindow, Option.map_eq_some_iff] at hseek
      obtain ⟨placed, hfill, rfl⟩ := hseek
      exact .inr ⟨hfits, hover, placed, hfill, rfl⟩

end Seek

/-- A hole that fits an acknowledged number is a stale one. -/
theorem Layout.stale_of_covered {r : RingBuffer} {seqnum : ℤ} {run : Extent}
    (hlayout : Layout r.dstart r.runs) (hcovered : Covered r seqnum)
    (hrun : run ∈ r.runs) (hfits : Fits run seqnum) :
    run.firstSeq < r.dstart := by
  obtain ⟨hhole, hrange⟩ := hfits
  have hordered := (hlayout.run_ok run hrun).ordered
  by_contra hlive
  push Not at hlive
  rcases hcovered with hbelow | ⟨other, hother, hfilled, hlow, hhigh⟩
  · omega
  · have hside := (hlayout.run_ok other hother).side
    obtain ⟨before, after, hruns⟩ := List.append_of_mem hrun
    rw [hruns] at hlayout hother
    have hne : other ∈ before ++ after := by
      simp only [List.mem_append, List.mem_cons] at hother ⊢
      rcases hother with h | rfl | h
      · exact .inl h
      · simp [hhole] at hfilled
      · exact .inr h
    have := hlayout.disjoint hlive hne
    omega

theorem Layout.covered_window {r : RingBuffer} {seqnum : ℤ}
    (hlayout : Layout r.dstart r.runs) (hcovered : Covered r seqnum) :
    seqnum ≤ r.dstart + 63 := by
  rcases hcovered with hbelow | ⟨run, hrun, hfilled, hlow, hhigh⟩
  · omega
  · have hok := hlayout.run_ok run hrun
    have hside := hok.side
    have hwindow := hok.window hfilled
    omega

theorem settle_eq_some_iff {r : RingBuffer} {seqnum result : ℤ}
    {data : List UInt8} {before after : List Extent} {placed : Placement}
    {r' : RingBuffer} :
    r.settle seqnum data before placed after = some (result, r') ↔
      ∃ buffer runs, storeBytes r.buffer placed.node data = some buffer ∧
        mergeRuns r.dstart (refill before placed after) = some runs ∧
        result = 1 ∧ r' =
          { buffer := buffer, dstart := r.dstart, runs := runs,
            dend := if seqnum > r.dend then seqnum else r.dend } := by
  simp only [RingBuffer.settle, RingBuffer.mergeList, Option.bind_eq_some_iff,
    Option.map_eq_some_iff, Prod.mk.injEq]
  constructor
  · rintro ⟨buffer, hstore, _, ⟨runs, hmerge, rfl⟩, rfl, rfl⟩
    exact ⟨buffer, runs, hstore, hmerge, rfl, rfl⟩
  · rintro ⟨buffer, runs, hstore, hmerge, rfl, rfl⟩
    exact ⟨buffer, hstore, _, ⟨runs, hmerge, rfl⟩, rfl, rfl⟩

/-- A write is harmless exactly when it leaves every byte that is still to be
delivered as it was. -/
theorem harmless_iff {r : RingBuffer} {place : Extent} {data : List UInt8}
    {buffer : ℕ → UInt8}
    (hwrite : CircWrite 64000 r.buffer buffer place.data data) :
    Harmless r place data ↔
      ∀ run ∈ r.runs, run.filled = true → r.dstart ≤ run.firstSeq →
        ∀ j : ℤ, 0 ≤ j → j < run.size →
          circ 64000 buffer (run.data + j) =
            circ 64000 r.buffer (run.data + j) := by
  constructor
  · intro hharmless run hrun hfilled hlive j h0 hj
    by_cases hmeets : ∃ i : ℕ, i < data.length ∧
        run.data + j ≡ place.data + i [ZMOD 64000]
    · obtain ⟨i, hi, hmod⟩ := hmeets
      rw [← hharmless run hrun hfilled hlive j h0 hj i hi hmod.symm,
        circ_congr hmod, hwrite.inside i hi]
    · push Not at hmeets
      exact hwrite.outside _ hmeets
  · intro hkept run hrun hfilled hlive j h0 hj i hi hmod
    rw [← hkept run hrun hfilled hlive j h0 hj, ← hwrite.inside i hi]
    exact circ_congr hmod

/-- `addData` on the ring, for a number that has been acknowledged. -/
theorem answer_iff_foundAgain {payload : ℤ → Payload} {r : RingBuffer}
    {seqnum : ℤ} (hsound : Sound r) (hlayout : Layout r.dstart r.runs)
    (hcovered : Covered r seqnum) :
    (∃ result r', r.addData seqnum 1000 (payload seqnum).toList =
        some (result, r') ∧ result ≠ 0 ∧
      ∀ run ∈ r.runs, run.filled = true → r.dstart ≤ run.firstSeq →
        ∀ j : ℤ, 0 ≤ j → j < run.size →
          circ 64000 r'.buffer (run.data + j) =
            circ 64000 r.buffer (run.data + j)) ↔
      FoundAgain payload r seqnum := by
  have hone := hlayout.one_le
  have hwindow := hlayout.covered_window hcovered
  have hlength := length_payload (payload seqnum)
  have hmerge : ∀ {before after run placed},
      r.runs = before ++ run :: after → Fits run seqnum →
      fillRun run seqnum 1000 = some placed →
      (mergeRuns r.dstart (refill before placed after) = none ↔
        closesRing (refill before placed after) = true) := by
    intro before after run placed hruns hfits hfill
    have hstale := hlayout.stale_of_covered hcovered (by simp [hruns]) hfits
    have htakes := takes_of_fillRun hfits.1 hfill (filled_of_fits hfits hfill)
    refine mergeRuns_eq_none_iff (by simp [refill]) ?_
    exact joins_refill (hruns ▸ hlayout) (hruns ▸ hsound.settled) hfits.1
      hstale htakes
  have hsize : ∀ {run placed}, Fits run seqnum →
      fillRun run seqnum 1000 = some placed →
      placed.node.size = (payload seqnum).toList.length := by
    intro run placed hfits hfill
    have htakes := takes_of_fillRun hfits.1 hfill (filled_of_fits hfits hfill)
    rw [htakes.node.2.2.1, hlength]
  rw [hsound.addData_eq]
  constructor
  · rintro ⟨result, r', hadd, hresult, hkept⟩
    rw [Option.bind_eq_some_iff] at hadd
    obtain ⟨answer, hseek, hanswer⟩ := hadd
    rcases seek_cases hone hwindow hseek with
      rfl | ⟨before, run, after, hruns, hbefore,
        ⟨hfilled, hfirst, hmax, -⟩ | ⟨hfits, hmax, placed, hfill, rfl⟩⟩
    · cases hanswer
      exact absurd rfl hresult
    · exact .duplicate before after run hruns hbefore hmax hfilled hfirst
    · obtain ⟨buffer, runs, hstore, hmerged, -, rfl⟩ :=
        settle_eq_some_iff.1 hanswer
      have hplace := (storeBytes_eq_some_iff r.buffer (hsize hfits hfill)
        (by omega)).1 ⟨buffer, hstore⟩
      have hwrite := storeBytes_circWrite (hsize hfits hfill) (by omega) hstore
      refine .recycled before after run placed hruns hbefore hmax hfits hfill
        hplace.1 hplace.2 ((harmless_iff hwrite).2 hkept) ?_
      rw [Bool.eq_false_iff, ne_eq, ← hmerge hruns hfits hfill, hmerged]
      simp
  · intro hfound
    cases hfound with
    | duplicate before after run hruns hbefore hmax hfilled hfirst =>
        refine ⟨1, r, ?_, by simp, fun _ _ _ _ _ _ _ => rfl⟩
        rw [hruns, seek_eq_duplicate hone hwindow hbefore hmax hfilled hfirst]
        rfl
    | recycled before after run placed hruns hbefore hmax hfits hfill hlow
        hhigh hharmless hcloses =>
        obtain ⟨buffer, hstore⟩ := (storeBytes_eq_some_iff r.buffer
          (hsize hfits hfill) (by omega)).2 ⟨hlow, hhigh⟩
        have hwrite := storeBytes_circWrite (hsize hfits hfill) (by omega)
          hstore
        obtain ⟨runs, hmerged⟩ : ∃ runs,
            mergeRuns r.dstart (refill before placed after) = some runs := by
          rw [← Option.ne_none_iff_exists', ne_eq, hmerge hruns hfits hfill,
            hcloses]
          simp
        refine ⟨1, { buffer := buffer, dstart := r.dstart, runs := runs,
                     dend := if seqnum > r.dend then seqnum else r.dend },
          ?_, by simp, (harmless_iff hwrite).1 hharmless⟩
        rw [hruns, seek_eq_placed hone hwindow hbefore hmax hfits hfill,
          Option.bind_some]
        exact settle_eq_some_iff.2 ⟨buffer, runs, hstore, hmerged, rfl, rfl⟩

theorem Merged.reacknowledged_iff_ring {payload : ℤ → Payload} {s : SBuffer}
    (hmerged : Merged s) (seqnum : ℤ) :
    Reacknowledged payload s seqnum ↔
      ∃ result r', s.toRing.addData seqnum 1000 (payload seqnum).toList =
          some (result, r') ∧ result ≠ 0 ∧
        ∀ run ∈ s.toRing.runs, run.filled = true →
          s.toRing.dstart ≤ run.firstSeq → ∀ j : ℤ, 0 ≤ j → j < run.size →
            circ 64000 r'.buffer (run.data + j) =
              circ 64000 s.toRing.buffer (run.data + j) := by
  have hrel := addData_refines hmerged.represents hmerged.sound.bounded
    seqnum 1000 (payload seqnum).toList
  constructor
  · rintro ⟨result, s', hadd, hresult, hkept⟩
    rw [hadd] at hrel
    generalize s.toRing.addData seqnum 1000 (payload seqnum).toList = right
      at hrel ⊢
    cases hrel with
    | @some _ answer hanswer =>
        obtain ⟨rfl, hrep⟩ := hanswer
        exact ⟨answer.1, answer.2, rfl, hresult, hrep.toRing_eq ▸ hkept⟩
  · rintro ⟨result, r', hadd, hresult, hkept⟩
    rw [hadd] at hrel
    rw [Reacknowledged]
    generalize s.addData seqnum 1000 (payload seqnum).toList = left at hrel ⊢
    cases hrel with
    | @some answer _ hanswer =>
        obtain ⟨rfl, hrep⟩ := hanswer
        obtain rfl := hrep.toRing_eq
        exact ⟨answer.1, answer.2, rfl, hresult, hkept⟩

/-- In every session without the sentinel number, a packet that has been
acknowledged is acknowledged again, and does no harm, exactly when it is found
again. -/
theorem reacknowledged_iff_foundAgain (payload : ℤ → Payload) (t : Session)
    (hreach : ((receiver payload).restrict noSentinel).Reachable t)
    (seqnum : ℤ) (hacked : seqnum ∈ t.acked) :
    Reacknowledged payload t.sbuffer seqnum ↔
      FoundAgain payload t.sbuffer.toRing seqnum := by
  have hmerged := merged_reachable hreach.of_restrict
  rw [hmerged.reacknowledged_iff_ring]
  exact answer_iff_foundAgain hmerged.sound (layout_reachable hreach)
    (acked_covered hreach seqnum hacked)

theorem reacknowledged_iff_foundAgain_first :
    ∃ t, ((receiver numbered).restrict noSentinel).Reachable t ∧
      1 ∈ t.acked ∧ (Reacknowledged numbered t.sbuffer 1 ↔
        FoundAgain numbered t.sbuffer.toRing 1) := by
  have hstart : Reaches numbered noSentinel RingBuffer.initHead [] [] :=
    reaches_start
  have hguard : ∀ t : Session, t.sbuffer.toRing = RingBuffer.initHead →
      noSentinel t (.addData 1) := by
    intro t _ hsentinel
    cases hsentinel
  obtain ⟨buffer, dend, -, hstored⟩ :=
    hstart.store 1 hguard rfl (by decide) rfl
  obtain ⟨t, hreach, -, hacked, -⟩ := hstored
  have hmem : 1 ∈ t.acked := by simp [hacked]
  exact ⟨t, hreach, hmem,
    reacknowledged_iff_foundAgain numbered t hreach 1 hmem⟩

/-- Packets 1 and 2 arrive and are merged; when 2 arrives again, it is not
acknowledged. -/
theorem not_reacknowledged :
    ¬ ∀ (payload : ℤ → Payload) (t : Session),
      (receiver payload).Reachable t → ∀ seqnum ∈ t.acked,
        Reacknowledged payload t.sbuffer seqnum := by
  intro hclaim
  let payload : ℤ → Payload := fun _ => List.Vector.replicate 1000 0
  have h : Reaches payload anyCall RingBuffer.initHead [] [] := reaches_start
  obtain ⟨_, _, -, h⟩ := h.store 1 (fun _ _ => trivial) rfl (by decide) rfl
  obtain ⟨buffer, dend, -, h⟩ :=
    h.store 2 (fun _ _ => trivial) rfl (by decide) rfl
  obtain ⟨t, hreach, hring, hacked, -⟩ := h
  have hmerged := merged_reachable hreach.of_restrict
  have hagain := hclaim payload t hreach.of_restrict 2 (by simp [hacked])
  rw [hmerged.reacknowledged_iff_ring] at hagain
  obtain ⟨result, r', hadd, hresult, -⟩ := hagain
  have hrejected : seek t.sbuffer.toRing.dstart 2 1000 []
      t.sbuffer.toRing.runs = some .rejected := by
    rw [hring]
    rfl
  rw [hmerged.sound.addData_eq, hrejected] at hadd
  cases hadd
  exact hresult rfl

end UdpTransfer.Receiver
