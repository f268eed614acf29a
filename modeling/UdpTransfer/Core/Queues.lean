import Mathlib.Tactic.Common

/-!
# Queues

A first-in-first-out queue is a list: entries join at its end and leave at its
front.  `Followed p q l` says that every entry with `p` has one with `q` queued
behind it, so that a `q` is read after the last `p`.  It stays so as entries
leave, and as entries without `p` join.
-/

namespace UdpTransfer.Queues

variable {α : Type*} {p q : α → Prop} {l : List α} {x : α}

def Followed (p q : α → Prop) : List α → Prop
  | [] => True
  | x :: l => (p x → ∃ y ∈ l, q y) ∧ Followed p q l

theorem Followed.leave (hfollowed : Followed p q (x :: l)) : Followed p q l :=
  hfollowed.2

theorem Followed.join (hfollowed : Followed p q l) (hx : ¬ p x) :
    Followed p q (l ++ [x]) := by
  induction l with
  | nil => exact ⟨fun hp => absurd hp hx, trivial⟩
  | cons y l ih =>
      refine ⟨fun hy => ?_, ih hfollowed.2⟩
      obtain ⟨z, hz, hq⟩ := hfollowed.1 hy
      exact ⟨z, List.mem_append_left _ hz, hq⟩

/-- A `q` that joins comes behind every `p`. -/
theorem followed_join (hx : q x) (hnot : ¬ p x) : Followed p q (l ++ [x]) := by
  induction l with
  | nil => exact ⟨fun hp => absurd hp hnot, trivial⟩
  | cons y l ih => exact ⟨fun _ => ⟨x, by simp, hx⟩, ih⟩

end UdpTransfer.Queues
