import IsalCrypto.Lib.Sizes
import Mathlib.Data.List.Basic

/-!
# Runs of a transition function

A system is a function `step : S → A → S`; a run is a list of actions. The invariant rule
`run_invariant` asks of each step a guard on the state before it and the action taken.
-/

namespace IsalCrypto.Lib

variable {S A : Type*}

/-- The state after the actions `as`. -/
def run (step : S → A → S) (s : S) (as : List A) : S := as.foldl step s

/-- Every action of the run meets `guard` in the state it is taken from. -/
def Guarded (step : S → A → S) (guard : S → A → Prop) : S → List A → Prop
  | _, [] => True
  | s, a :: as => guard s a ∧ Guarded step guard (step s a) as

instance Guarded.decidable (step : S → A → S) (guard : S → A → Prop)
    [∀ s a, Decidable (guard s a)] : ∀ s as, Decidable (Guarded step guard s as)
  | _, [] => .isTrue trivial
  | s, a :: as =>
    have := Guarded.decidable step guard (step s a) as
    inferInstanceAs (Decidable (guard s a ∧ Guarded step guard (step s a) as))

theorem run_cons (step : S → A → S) (s : S) (a : A) (as : List A) :
    run step s (a :: as) = run step (step s a) as := rfl

theorem run_append (step : S → A → S) (s : S) (as bs : List A) :
    run step s (as ++ bs) = run step (run step s as) bs :=
  List.foldl_append

theorem guarded_append {step : S → A → S} {guard : S → A → Prop} {as bs : List A} {s : S} :
    Guarded step guard s (as ++ bs) ↔
      Guarded step guard s as ∧ Guarded step guard (run step s as) bs := by
  induction as generalizing s with
  | nil => exact (and_iff_right trivial).symm
  | cons a as ih =>
    rw [List.cons_append, Guarded, Guarded, ih, and_assoc]
    rfl

/-- What every guarded step preserves, a guarded run preserves. -/
theorem run_invariant {step : S → A → S} {guard : S → A → Prop} {Inv : S → Prop}
    (hstep : ∀ s a, Inv s → guard s a → Inv (step s a)) {as : List A} :
    ∀ {s : S}, Inv s → Guarded step guard s as → Inv (run step s as) := by
  induction as with
  | nil => exact fun h _ => h
  | cons a as ih => exact fun h hg => ih (hstep _ a h hg.1) hg.2

end IsalCrypto.Lib
