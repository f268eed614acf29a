import Mathlib.Data.Option.Basic
import Mathlib.Tactic.Common

/-!
# Machines that answer

A `Machine` takes one operation after the other and answers each, unless the
operation has no result.  An `Abstraction` maps its states to those of another
machine, operation by operation; then both give the same answers to any sequence
of operations, and where one of them has no result the other has none either.
-/

namespace UdpTransfer.Machines

variable {S T C A : Type*}

structure Machine (S C A : Type*) where
  start : S
  op : S → C → Option (A × S)

/-- The answers to a sequence of operations, and the state afterwards. -/
def Machine.run (m : Machine S C A) : S → List C → Option (List A × S)
  | s, [] => some ([], s)
  | s, c :: cs =>
      (m.op s c).bind fun (answer, s) =>
        (m.run s cs).map fun (answers, s) => (answer :: answers, s)

/-- A map between the states of two machines under which their operations agree.
It need only be right for states that meet an invariant. -/
structure Abstraction (m : Machine S C A) (m' : Machine T C A) where
  toFun : S → T
  invariant : S → Prop
  invariant_start : invariant m.start
  map_start : toFun m.start = m'.start
  invariant_op : ∀ {s s' c answer}, invariant s → m.op s c = some (answer, s') →
    invariant s'
  map_op : ∀ {s} c, invariant s →
    (m.op s c).map (Prod.map id toFun) = m'.op (toFun s) c

namespace Abstraction

variable {m : Machine S C A} {m' : Machine T C A}

theorem map_run_of_invariant (h : Abstraction m m') {cs : List C} {s : S}
    (hinv : h.invariant s) :
    (m.run s cs).map (Prod.map id h.toFun) = m'.run (h.toFun s) cs := by
  induction cs generalizing s with
  | nil => rfl
  | cons c cs ih =>
      rw [Machine.run, Machine.run, ← h.map_op c hinv]
      cases hop : m.op s c with
      | none => rfl
      | some result =>
          obtain ⟨answer, next⟩ := result
          have hrest := ih (h.invariant_op hinv hop)
          simp only [Option.bind_some, Option.map_some, Prod.map_apply, id_eq]
          rw [← hrest, Option.map_map, Option.map_map]
          rfl

/-- Over any sequence of operations from the start, the answers are the same and
the states correspond. -/
theorem map_run (h : Abstraction m m') (cs : List C) :
    (m.run m.start cs).map (Prod.map id h.toFun) = m'.run m'.start cs := by
  rw [h.map_run_of_invariant h.invariant_start, h.map_start]

end Abstraction

end UdpTransfer.Machines
