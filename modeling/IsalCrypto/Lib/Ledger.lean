import IsalCrypto.Lib.Runs
import Mathlib.Logic.Function.Basic

/-!
# Ledgers

What a component that takes items in and hands them back has done, one entry after the other. An
item is owed a value from when it is taken until it is given.
-/

namespace IsalCrypto.Lib

/-- An item is taken and owed a value, or given with a value. -/
inductive Entry (J D : Type*)
  | taken (j : J) (d : D)
  | given (j : J) (d : D)
deriving DecidableEq

section Ledger

variable {J D : Type*} [DecidableEq J]

/-- What is owed after an entry. -/
def Entry.post (owed : J → Option D) : Entry J D → J → Option D
  | .taken j d => Function.update owed j (some d)
  | .given j _ => Function.update owed j none

/-- An item that is taken is not owed before, and one that is given is owed just that value. -/
def Entry.Fair (owed : J → Option D) : Entry J D → Prop
  | .taken j _ => owed j = none
  | .given j d => owed j = some d

/-- What is owed at the end of a ledger. -/
def owedAfter (l : List (Entry J D)) : J → Option D := run Entry.post (fun _ => none) l

/-- Every item is given at most once for each time it is taken, after it, with the value owed. -/
def Settles (l : List (Entry J D)) : Prop := Guarded Entry.post Entry.Fair (fun _ => none) l

theorem owedAfter_append (l : List (Entry J D)) (e : Entry J D) :
    owedAfter (l ++ [e]) = e.post (owedAfter l) := run_append ..

theorem Settles.append {l : List (Entry J D)} (h : Settles l) {e : Entry J D}
    (he : e.Fair (owedAfter l)) : Settles (l ++ [e]) :=
  guarded_append.mpr ⟨h, he, trivial⟩

end Ledger

end IsalCrypto.Lib
