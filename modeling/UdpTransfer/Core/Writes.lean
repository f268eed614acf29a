import Mathlib.Data.List.Induction
import Mathlib.Tactic.Common

/-!
# Places that are written over and over

A history of writes is a list of places and values, the oldest first.  A place
holds what was last written to it, and the initial value before that.
-/

namespace UdpTransfer.Writes

variable {ι α : Type*}

/-- The last write with a property is this one. -/
def LastWrite (p : ι × α → Prop) (writes : List (ι × α)) (write : ι × α) :
    Prop :=
  ∃ before after, writes = before ++ write :: after ∧ p write ∧
    ∀ later ∈ after, ¬ p later

/-- The value was written to this place, and nothing has been since. -/
def Stands (writes : List (ι × α)) (i : ι) (value : α) : Prop :=
  LastWrite (fun write => write.1 = i) writes (i, value)

/-- The value was last written to this place. -/
def Newest (writes : List (ι × α)) (i : ι) (value : α) : Prop :=
  LastWrite (fun write => write.2 = value) writes (i, value)

section LastWrite

variable {p : ι × α → Prop} {writes : List (ι × α)} {write other : ι × α}

theorem lastWrite_concat_self (hp : p write) :
    LastWrite p (writes ++ [write]) write :=
  ⟨writes, [], rfl, hp, by simp⟩

theorem LastWrite.concat (hlast : LastWrite p writes write) (hnot : ¬ p other) :
    LastWrite p (writes ++ [other]) write := by
  obtain ⟨before, after, rfl, hp, hafter⟩ := hlast
  refine ⟨before, after ++ [other], by simp, hp, ?_⟩
  intro later hlater
  rcases List.mem_append.1 hlater with hlater | hlater
  · exact hafter later hlater
  · rw [List.mem_singleton.1 hlater]
    exact hnot

end LastWrite

section Held

variable [DecidableEq ι] {init value : α} {writes : List (ι × α)} {i j : ι}

/-- What a place holds after the writes. -/
def held (init : α) (writes : List (ι × α)) (i : ι) : α :=
  writes.foldl (fun value write => if write.1 = i then write.2 else value) init

theorem held_concat :
    held init (writes ++ [(j, value)]) i =
      if j = i then value else held init writes i := by
  simp [held]

/-- What stands at a place is what the place holds. -/
theorem Stands.held_eq (hstands : Stands writes i value) :
    held init writes i = value := by
  obtain ⟨before, after, rfl, -, hafter⟩ := hstands
  induction after using List.reverseRecOn with
  | nil => rw [held_concat, if_pos rfl]
  | append_singleton after write ih =>
      rw [← List.cons_append, ← List.append_assoc, held_concat,
        if_neg (hafter write (by simp))]
      exact ih fun write hwrite => hafter write (by simp [hwrite])

/-- A place holds a value other than the initial one exactly when that value
stands there. -/
theorem held_eq_iff (hne : value ≠ init) :
    held init writes i = value ↔ Stands writes i value := by
  refine ⟨fun hheld => ?_, Stands.held_eq⟩
  induction writes using List.reverseRecOn with
  | nil => exact absurd hheld.symm hne
  | append_singleton writes write ih =>
      obtain ⟨j, other⟩ := write
      rw [held_concat] at hheld
      split at hheld
      · rename_i hplace
        rw [hplace, hheld]
        exact lastWrite_concat_self rfl
      · rename_i hplace
        exact (ih hheld).concat hplace

end Held

end UdpTransfer.Writes
