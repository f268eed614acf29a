import Mathlib.Logic.Relation
import UdpTransfer.Receiver.Ring

/-!
# What a merge can do

A merge that returns is a sequence of single steps, each of which joins two
neighbouring runs by one of the two rules of `mergeList`.  What every step
keeps, every merge keeps.  A merged ring is settled, and merging a settled
ring changes nothing.
-/

namespace UdpTransfer.Receiver

open Relation
open SBuffer

/-- One joining of two neighbours.  The second rule is only tried where the
first has failed, or on a hole that the second rule has already widened. -/
inductive MergeStep (dstart : ℤ) : List Extent → List Extent → Prop where
  | following (before after : List Extent) (current next : Extent) :
      followsOn current next = true →
      MergeStep dstart (before ++ current :: next :: after)
        (before ++ mergeFollowing current next :: after)
  | spare (before after : List Extent) (current next : Extent) :
      sparesHoles dstart current next = true →
      followsOn current next = false ∨ current.lastSeq = intMax →
      MergeStep dstart (before ++ current :: next :: after)
        (before ++ mergeSpare current next :: after)

theorem walk_steps {dstart : ℤ} {runs : List Extent} (after : List Extent) :
    ∀ (before : List Extent) (current : Extent) (phase : Phase),
      walk dstart before current phase after = some runs →
      (phase = .spare → ∀ next ∈ after.head?,
        followsOn current next = false ∨ current.lastSeq = intMax) →
      ReflTransGen (MergeStep dstart) (before ++ current :: after) runs := by
  induction after with
  | nil =>
      intro before current phase hwalk _
      rw [walk] at hwalk
      split at hwalk
      · cases hwalk
      · cases hwalk
        exact .refl
  | cons next after ih =>
      intro before current phase hwalk hphase
      rw [walk] at hwalk
      split at hwalk
      · rename_i hfollow
        refine .head (.following before after current next hfollow.2) ?_
        exact ih _ _ _ hwalk (by simp)
      · rename_i hfollow
        split at hwalk
        · rename_i hspare
          refine .head (.spare before after current next hspare ?_) ?_
          · by_cases hspareNow : phase = .spare
            · exact hphase hspareNow next (by simp)
            · left
              simpa [hspareNow] using hfollow
          · exact ih _ _ _ hwalk (by simp)
        · have := ih _ _ _ hwalk (by simp)
          simpa using this

theorem mergeRuns_steps {dstart : ℤ} {runs merged : List Extent}
    (hmerge : mergeRuns dstart runs = some merged) :
    ReflTransGen (MergeStep dstart) runs merged := by
  cases runs with
  | nil => cases hmerge
  | cons current after =>
      exact walk_steps after [] current .arrived hmerge (by simp)

/-- What holds of every run, and of a run made of two, holds after a step. -/
theorem MergeStep.forall_run {dstart : ℤ} {left right : List Extent}
    {P : Extent → Prop} (hstep : MergeStep dstart left right)
    (hall : ∀ run ∈ left, P run)
    (hfollowing : ∀ current ∈ left, ∀ next ∈ left,
      followsOn current next = true → P (mergeFollowing current next))
    (hspares : ∀ current ∈ left, ∀ next ∈ left,
      sparesHoles dstart current next = true → P (mergeSpare current next)) :
    ∀ run ∈ right, P run := by
  cases hstep with
  | following before after current next hfollow =>
      have hmerged := hfollowing current (by simp) next (by simp) hfollow
      simp only [List.forall_mem_append, List.forall_mem_cons] at hall ⊢
      exact ⟨hall.1, hmerged, hall.2.2.2⟩
  | spare before after current next hspare _ =>
      have hmerged := hspares current (by simp) next (by simp) hspare
      simp only [List.forall_mem_append, List.forall_mem_cons] at hall ⊢
      exact ⟨hall.1, hmerged, hall.2.2.2⟩

/-- A property that every single step keeps is kept by every merge. -/
theorem mergeRuns_invariant {dstart : ℤ} {runs merged : List Extent}
    {I : List Extent → Prop}
    (hstep : ∀ left right, MergeStep dstart left right → I left → I right)
    (hmerge : mergeRuns dstart runs = some merged) (hruns : I runs) :
    I merged := by
  have hsteps := mergeRuns_steps hmerge
  clear hmerge
  induction hsteps with
  | refl => exact hruns
  | tail _ hlast ih => exact hstep _ _ hlast ih

theorem bounded_mergeStep {dstart : ℤ} {left right : List Extent}
    (hstep : MergeStep dstart left right) (hbounded : Bounded left) :
    Bounded right := by
  cases hstep with
  | following before after current next hfollow =>
      exact bounded_merge hbounded rfl (hbounded next (by simp)).2
  | spare before after current next hspare hnot =>
      exact bounded_merge hbounded rfl le_rfl

theorem bounded_mergeRuns {dstart : ℤ} {runs merged : List Extent}
    (hmerge : mergeRuns dstart runs = some merged) (hbounded : Bounded runs) :
    Bounded merged :=
  mergeRuns_invariant (fun _ _ => bounded_mergeStep) hmerge hbounded

/-! ## Settled rings and merging -/

theorem walk_settled {dstart : ℤ} {runs : List Extent} (after : List Extent) :
    ∀ (before : List Extent) (current : Extent) (phase : Phase),
      walk dstart before current phase after = some runs →
      Bounded (before ++ current :: after) →
      Settled dstart (before ++ [current]) →
      (phase = .spare → ∀ next ∈ after.head?,
        followsOn current next = false ∨ current.lastSeq = intMax) →
      Settled dstart runs := by
  induction after with
  | nil =>
      intro before current phase hwalk _ hsettled _
      rw [walk] at hwalk
      split at hwalk
      · cases hwalk
      · cases hwalk
        exact hsettled
  | cons next after ih =>
      intro before current phase hwalk hbounded hsettled hphase
      rw [walk] at hwalk
      have hnext := hbounded next (by simp)
      split at hwalk
      · exact ih _ _ _ hwalk (bounded_merge hbounded rfl hnext.2)
          (Settled.replace_last (mergeFollowing_firstSeq current next)
            (mergeFollowing_filled current next) hsettled) (by simp)
      · rename_i hfollow
        split at hwalk
        · exact ih _ _ _ hwalk (bounded_merge hbounded rfl le_rfl)
            (Settled.replace_last (mergeSpare_firstSeq current next)
              (mergeSpare_filled current next) hsettled) (by simp)
        · rename_i hspare
          refine ih _ _ _ hwalk (by simpa using hbounded) ?_ (by simp)
          refine hsettled.concat ?_ (by simpa using hspare)
          by_cases hspareNow : phase = .spare
          · rcases hphase hspareNow next (by simp) with h | hlast
            · exact h
            · rw [Bool.eq_false_iff, ne_eq, followsOn_iff]
              rintro ⟨heq, -⟩
              omega
          · simpa [hspareNow] using hfollow

theorem settled_mergeRuns {dstart : ℤ} {runs merged : List Extent}
    (hmerge : mergeRuns dstart runs = some merged) (hbounded : Bounded runs) :
    Settled dstart merged := by
  cases runs with
  | nil => cases hmerge
  | cons current after =>
      exact walk_settled after [] current .arrived hmerge hbounded
        (List.isChain_singleton _) (by simp)

theorem walk_of_settled {dstart : ℤ} (after : List Extent) :
    ∀ (before : List Extent) (current : Extent),
      Settled dstart (current :: after) →
      walk dstart before current .arrived after =
        some (before ++ current :: after) := by
  induction after with
  | nil =>
      intro before current _
      simp [walk]
  | cons next after ih =>
      intro before current hsettled
      rw [Settled, List.isChain_cons_cons] at hsettled
      obtain ⟨⟨hfollow, hspare⟩, hrest⟩ := hsettled
      rw [walk, if_neg (by simp [hfollow]), if_neg (by simp [hspare]),
        ih _ _ hrest]
      simp

/-- Merging a settled ring changes nothing. -/
theorem mergeRuns_of_settled {dstart : ℤ} {runs : List Extent}
    (hne : runs ≠ []) (hsettled : Settled dstart runs) :
    mergeRuns dstart runs = some runs := by
  cases runs with
  | nil => exact absurd rfl hne
  | cons current after => exact walk_of_settled after [] current hsettled

/-- A merge leaves the first number and the kind of the run at `head`. -/
theorem head_mergeRuns {dstart : ℤ} {merged rest : List Extent}
    {first : Extent} (hmerge : mergeRuns dstart (first :: rest) = some merged) :
    ∃ first' rest', merged = first' :: rest' ∧
      first'.firstSeq = first.firstSeq ∧ first'.filled = first.filled := by
  refine mergeRuns_invariant (I := fun runs => ∃ first' rest',
    runs = first' :: rest' ∧ first'.firstSeq = first.firstSeq ∧
      first'.filled = first.filled) ?_ hmerge ⟨first, rest, rfl, rfl, rfl⟩
  rintro left right hstep ⟨first', rest', heq, hfirst, hfilled⟩
  cases hstep with
  | following before after current next hfollow =>
      cases before with
      | nil =>
          cases heq
          exact ⟨_, _, rfl, hfirst, hfilled⟩
      | cons other before =>
          cases heq
          exact ⟨_, _, rfl, hfirst, hfilled⟩
  | spare before after current next hspare hnot =>
      cases before with
      | nil =>
          cases heq
          exact ⟨_, _, rfl, hfirst, hfilled⟩
      | cons other before =>
          cases heq
          exact ⟨_, _, rfl, hfirst, hfilled⟩

end UdpTransfer.Receiver
