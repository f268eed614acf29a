import Mathlib.Data.Option.Basic
import Mathlib.Tactic.Common

/-!
# While loops that may fail to return

`whileLoop cond body state` runs `while (cond) body` from `state`.  The result
is `none` exactly when the loop never reaches a state that fails the test,
either because it runs for ever or because some round of the body is itself
undefined.  The rules below are the ones a proof needs: one for a loop that is
over, one for a round, an induction over the rounds of a loop that returned,
and one for a loop that can never return.  Here and in the other loops, `apply`
enters the recursive call: the definition then records no source positions.
-/

namespace UdpTransfer.Loop

variable {S : Type*}

def whileLoop (cond : S → Bool) (body : S → Option S) (state : S) : Option S :=
  if cond state then
    match body state with
    | none => none
    | some next => by apply whileLoop; exacts [cond, body, next]
  else
    some state
partial_fixpoint

variable {cond : S → Bool} {body : S → Option S}

theorem whileLoop_done {state : S} (hcond : cond state = false) :
    whileLoop cond body state = some state := by
  rw [whileLoop, if_neg (by simp [hcond])]

theorem whileLoop_round {state next : S} (hcond : cond state = true)
    (hbody : body state = some next) :
    whileLoop cond body state = whileLoop cond body next := by
  rw [whileLoop, if_pos hcond, hbody]

theorem whileLoop_bind {state : S} (hcond : cond state = true) :
    whileLoop cond body state = (body state).bind (whileLoop cond body) := by
  rw [whileLoop, if_pos hcond]
  cases body state <;> rfl

/-- Induction over the rounds of a loop that returned. -/
theorem whileLoop_induction {motive : S → S → Prop}
    (hdone : ∀ state, cond state = false → motive state state)
    (hround : ∀ state next final, cond state = true → body state = some next →
      motive next final → motive state final)
    {state final : S} (hrun : whileLoop cond body state = some final) :
    motive state final := by
  refine whileLoop.partial_correctness cond body motive ?_ state final hrun
  intro loop ih state final hrun
  split at hrun
  · rename_i hcond
    split at hrun
    · cases hrun
    · rename_i next hbody
      exact hround state next final hcond hbody (ih _ _ hrun)
  · rename_i hcond
    cases hrun
    exact hdone state (by simpa using hcond)

/-- An invariant of the body holds where the loop ends, and the test fails
there. -/
theorem whileLoop_invariant {I : S → Prop}
    (hbody : ∀ state next, I state → cond state = true →
      body state = some next → I next)
    {state final : S} (hinv : I state)
    (hrun : whileLoop cond body state = some final) :
    I final ∧ cond final = false := by
  have hall : I state → I final ∧ cond final = false := by
    refine whileLoop_induction
      (motive := fun state final => I state → I final ∧ cond final = false)
      ?_ ?_ hrun
    · intro state hcond hinv
      exact ⟨hinv, hcond⟩
    · intro state next final hcond hnext ih hinv
      exact ih (hbody state next hinv hcond hnext)
  exact hall hinv

/-- A loop whose test holds in every state of an invariant never returns. -/
theorem whileLoop_diverges {I : S → Prop}
    (hcond : ∀ state, I state → cond state = true)
    (hbody : ∀ state next, I state → body state = some next → I next)
    {state : S} (hinv : I state) : whileLoop cond body state = none := by
  cases hrun : whileLoop cond body state with
  | none => rfl
  | some final =>
      obtain ⟨hfinal, hstop⟩ :=
        whileLoop_invariant (fun state next hinv _ => hbody state next hinv)
          hinv hrun
      rw [hcond final hfinal] at hstop
      cases hstop

end UdpTransfer.Loop
