import Mathlib.Data.List.Basic
import Mathlib.Data.List.Induction

/-!
# Folds that tell their inputs apart

A fold whose step is injective in the state and in the letter gives another
result as soon as one letter is exchanged.
-/

namespace UdpTransfer.Folds

variable {S A : Type*} {step : S → A → S}

theorem foldl_injective (hstate : ∀ a, Function.Injective (step · a))
    (as : List A) : Function.Injective (as.foldl step) := by
  induction as with
  | nil => exact fun _ _ heq => heq
  | cons a as ih => exact ih.comp (hstate a)

/-- One exchanged letter changes the result. -/
theorem foldl_set_ne (hstate : ∀ a, Function.Injective (step · a))
    (hletter : ∀ s, Function.Injective (step s)) (s : S) {as : List A} {i : ℕ}
    (hi : i < as.length) {a : A} (hne : as[i] ≠ a) :
    (as.set i a).foldl step s ≠ as.foldl step s := by
  induction as generalizing s i with
  | nil => exact absurd hi (Nat.not_lt_zero i)
  | cons b as ih =>
      cases i with
      | zero =>
          intro heq
          have hstep : step s a = step s b := foldl_injective hstate as heq
          exact hne (hletter s hstep).symm
      | succ i => exact ih (step s b) (Nat.lt_of_succ_lt_succ hi) hne

end UdpTransfer.Folds
