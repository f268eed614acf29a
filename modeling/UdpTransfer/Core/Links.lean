import Mathlib.Data.List.Nodup
import Mathlib.Logic.Function.Basic
import Mathlib.Tactic.Common

/-!
# Linked segments

A linked structure is read through its successor map `next`.  `Segment next p
ps q` says that the walk from `p` visits exactly the cells `ps` and then stands
at `q`; a list that ends in a null pointer and a ring that closes on its head
are both segments.  The lemmas say how a segment changes when one link is
redirected: a cell spliced in after another, and a cell spliced out.
-/

namespace UdpTransfer.Links

open Function

variable {Cell : Type*}

def Segment (next : Cell → Cell) : Cell → List Cell → Cell → Prop
  | p, [], q => p = q
  | p, cell :: cells, q => p = cell ∧ Segment next (next cell) cells q

variable {next next' : Cell → Cell} {p q : Cell}

@[simp]
theorem segment_nil : Segment next p [] q ↔ p = q := Iff.rfl

@[simp]
theorem segment_cons {cell : Cell} {cells : List Cell} :
    Segment next p (cell :: cells) q ↔
      p = cell ∧ Segment next (next cell) cells q := Iff.rfl

theorem segment_append {left right : List Cell} :
    Segment next p (left ++ right) q ↔
      ∃ r, Segment next p left r ∧ Segment next r right q := by
  induction left generalizing p with
  | nil => simp
  | cons cell cells ih => simp [ih, and_assoc]

theorem Segment.congr {cells : List Cell}
    (hagree : ∀ cell ∈ cells, next cell = next' cell)
    (hseg : Segment next p cells q) : Segment next' p cells q := by
  induction cells generalizing p with
  | nil => exact hseg
  | cons cell cells ih =>
      obtain ⟨hp, hrest⟩ := hseg
      refine ⟨hp, ih (fun other hother => hagree other (by simp [hother])) ?_⟩
      rw [← hagree cell (by simp)]
      exact hrest

theorem Segment.next_of_mid {l r : List Cell} {cell succ : Cell}
    (hseg : Segment next p (l ++ cell :: succ :: r) q) :
    next cell = succ := by
  obtain ⟨mid, -, -, hsucc, -⟩ := segment_append.1 hseg
  exact hsucc

theorem Segment.next_of_last {l : List Cell} {cell : Cell}
    (hseg : Segment next p (l ++ [cell]) q) : next cell = q := by
  obtain ⟨mid, -, -, hlast⟩ := segment_append.1 hseg
  exact hlast

/-- The first cell of a nonempty segment is where it starts. -/
theorem Segment.head_eq {cell : Cell} {cells : List Cell}
    (hseg : Segment next p (cell :: cells) q) : cell = p :=
  hseg.1.symm

variable [DecidableEq Cell]

theorem Segment.update_of_notMem {cells : List Cell} {cell value : Cell}
    (hmem : cell ∉ cells) (hseg : Segment next p cells q) :
    Segment (update next cell value) p cells q := by
  refine hseg.congr fun other hother => ?_
  rw [update_of_ne (by rintro rfl; exact hmem hother)]

/-- Redirecting `cell` past its successor takes the successor out. -/
theorem Segment.spliceOut {l r : List Cell} {cell succ : Cell}
    (hnodup : (l ++ cell :: succ :: r).Nodup)
    (hseg : Segment next p (l ++ cell :: succ :: r) q) :
    Segment (update next cell (next succ)) p (l ++ cell :: r) q := by
  obtain ⟨mid, hleft, hcell, hsucc, hright⟩ := segment_append.1 hseg
  have hnotLeft : cell ∉ l := by
    intro hmem
    exact (List.nodup_append.1 hnodup).2.2 cell hmem cell (by simp) rfl
  have hnotRight : cell ∉ r := by
    have := (List.nodup_append.1 hnodup).2.1
    simp only [List.nodup_cons, List.mem_cons, not_or] at this
    exact this.1.2
  refine segment_append.2 ⟨mid, hleft.update_of_notMem hnotLeft, hcell, ?_⟩
  rw [update_self]
  exact hright.update_of_notMem hnotRight

/-- Linking a new cell in between `cell` and its successor. -/
theorem Segment.spliceIn {l r : List Cell} {cell new : Cell}
    (hnodup : (l ++ cell :: r).Nodup)
    (hnew : new ∉ l ++ cell :: r)
    (hseg : Segment next p (l ++ cell :: r) q) :
    Segment (update (update next new (next cell)) cell new) p
      (l ++ cell :: new :: r) q := by
  obtain ⟨mid, hleft, hcell, hright⟩ := segment_append.1 hseg
  have hnotLeft : cell ∉ l := by
    intro hmem
    exact (List.nodup_append.1 hnodup).2.2 cell hmem cell (by simp) rfl
  have hnotRight : cell ∉ r :=
    (List.nodup_cons.1 (List.nodup_append.1 hnodup).2.1).1
  simp only [List.mem_append, List.mem_cons, not_or] at hnew
  obtain ⟨hnewLeft, hnewCell, hnewRight⟩ := hnew
  refine segment_append.2 ⟨mid, ?_, hcell, ?_, ?_⟩
  · exact (hleft.update_of_notMem hnewLeft).update_of_notMem hnotLeft
  · rw [update_self]
  · rw [update_of_ne hnewCell, update_self]
    exact (hright.update_of_notMem hnewRight).update_of_notMem hnotRight

/-- A ring through `head`: the walk from `head` visits `cells`, no cell twice,
and comes back to `head`. -/
structure Cycle (next : Cell → Cell) (head : Cell) (cells : List Cell) :
    Prop where
  segment : Segment next head cells head
  nonempty : cells ≠ []
  nodup : cells.Nodup

omit [DecidableEq Cell] in
theorem Cycle.head_mem {head : Cell} {cells : List Cell}
    (hcycle : Cycle next head cells) : head ∈ cells := by
  cases cells with
  | nil => exact absurd rfl hcycle.nonempty
  | cons cell cells => simp [hcycle.segment.head_eq]

omit [DecidableEq Cell] in
/-- A ring may be entered one cell further on. -/
theorem Cycle.rotate {head : Cell} {cells : List Cell}
    (hcycle : Cycle next head (head :: cells)) :
    Cycle next (next head) (cells ++ [head]) := by
  obtain ⟨-, hrest⟩ := hcycle.segment
  refine ⟨segment_append.2 ⟨head, hrest, rfl, rfl⟩, by simp, ?_⟩
  have := hcycle.nodup
  rw [List.nodup_cons] at this
  rw [List.nodup_append]
  refine ⟨this.2, by simp, ?_⟩
  rintro a ha b hb rfl
  simp only [List.mem_singleton] at hb
  subst hb
  exact this.1 ha

omit [DecidableEq Cell] in
/-- A ring may be entered at any of its cells. -/
theorem Cycle.enterAt {head cell : Cell} {l r : List Cell}
    (hcycle : Cycle next head (l ++ cell :: r)) :
    Cycle next cell (cell :: (r ++ l)) := by
  obtain ⟨mid, hleft, hmid, hright⟩ := segment_append.1 hcycle.segment
  subst hmid
  refine ⟨⟨rfl, segment_append.2 ⟨head, hright, hleft⟩⟩, by simp, ?_⟩
  have hperm : (l ++ mid :: r).Perm (mid :: (r ++ l)) :=
    List.perm_append_comm
  exact hperm.nodup_iff.1 hcycle.nodup

omit [DecidableEq Cell] in
theorem Cycle.head_eq {head cell : Cell} {cells : List Cell}
    (hcycle : Cycle next head (cell :: cells)) : cell = head :=
  hcycle.segment.head_eq

end UdpTransfer.Links
