import Mathlib.Tactic.Common

/-!
# Runs of a labelled transition system

A `System` starts in an initial state and takes labelled steps.  A property of
every state that a run can reach is proved by an invariant of the step.  A
condition on the steps is put on a whole run by restricting the system to the
steps that meet it.
-/

namespace UdpTransfer.Runs

variable {S L : Type*}

structure System (S L : Type*) where
  initial : S → Prop
  step : S → L → S → Prop

namespace System

inductive Reachable (sys : System S L) : S → Prop where
  | initial {s : S} : sys.initial s → Reachable sys s
  | step {s s' : S} {l : L} :
      Reachable sys s → sys.step s l s' → Reachable sys s'

/-- The same system, taking only the steps that meet a condition on the state
before the step and on its label. -/
def restrict (sys : System S L) (guard : S → L → Prop) : System S L where
  initial := sys.initial
  step s l s' := guard s l ∧ sys.step s l s'

variable {sys : System S L}

theorem Reachable.of_restrict {guard : S → L → Prop} {s : S}
    (hreach : (sys.restrict guard).Reachable s) : sys.Reachable s := by
  induction hreach with
  | initial hinit => exact .initial hinit
  | step _ hstep ih => exact .step ih hstep.2

theorem Reachable.restrict_true {s : S} (hreach : sys.Reachable s) :
    (sys.restrict fun _ _ => True).Reachable s := by
  induction hreach with
  | initial hinit => exact .initial hinit
  | step _ hstep ih => exact .step ih ⟨trivial, hstep⟩

/-- A weaker condition allows the same runs. -/
theorem Reachable.restrict_mono {guard guard' : S → L → Prop}
    (hguard : ∀ s l, guard s l → guard' s l) {s : S}
    (hreach : (sys.restrict guard).Reachable s) :
    (sys.restrict guard').Reachable s := by
  induction hreach with
  | initial hinit => exact .initial hinit
  | step _ hstep ih => exact .step ih ⟨hguard _ _ hstep.1, hstep.2⟩

/-- A step may assume the invariants that are known already. -/
theorem Reachable.invariant_with {I J : S → Prop}
    (hknown : ∀ s, sys.Reachable s → J s)
    (hinit : ∀ s, sys.initial s → I s)
    (hstep : ∀ s l s', J s → I s → sys.step s l s' → I s')
    {s : S} (hreach : sys.Reachable s) : I s := by
  induction hreach with
  | initial hstart => exact hinit _ hstart
  | step hreach hnext ih => exact hstep _ _ _ (hknown _ hreach) ih hnext

theorem Reachable.invariant {I : S → Prop}
    (hinit : ∀ s, sys.initial s → I s)
    (hstep : ∀ s l s', I s → sys.step s l s' → I s')
    {s : S} (hreach : sys.Reachable s) : I s :=
  hreach.invariant_with (J := fun _ => True) (fun _ _ => trivial) hinit
    fun s l s' _ => hstep s l s'

/-- A system whose steps are steps of another one, or leave the state as it is,
reaches no other states. -/
theorem Reachable.of_steps {L' : Type*} {sys' : System S L'}
    (hinit : ∀ s, sys.initial s → sys'.initial s)
    (hstep : ∀ s l s', sys'.Reachable s → sys.step s l s' →
      s' = s ∨ ∃ l', sys'.step s l' s')
    {s : S} (hreach : sys.Reachable s) : sys'.Reachable s := by
  induction hreach with
  | initial hstart => exact .initial (hinit _ hstart)
  | step _ hnext ih =>
      rcases hstep _ _ _ ih hnext with rfl | ⟨l', hnext'⟩
      · exact ih
      · exact .step ih hnext'

end System

end UdpTransfer.Runs
