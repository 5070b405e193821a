import Datalog.TermStore

/-!
# Substitutions

The values of a plan's slots, together with the order in which they were bound, so that the latest
bindings can be undone.
-/

namespace Datalog

/-- The values of slots, and the bound slots in the order in which they were bound. -/
structure Substitution where
  slots : List (Option TermId)
  trail : List Nat := []
  deriving DecidableEq, Inhabited

namespace Substitution

def unbound (count : Nat) : Substitution where
  slots := List.replicate count none

def bind (substitution : Substitution) (slot : Nat) (value : TermId) : Substitution where
  slots := substitution.slots.set slot (some value)
  trail := substitution.trail ++ [slot]

/-- The mark to which later bindings can be undone. -/
def checkpoint (substitution : Substitution) : Nat :=
  substitution.trail.length

/-- Undo every binding made since a checkpoint. -/
def rollback (substitution : Substitution) (checkpoint : Nat) : Substitution where
  slots :=
    (substitution.trail.drop checkpoint).foldl (fun slots slot => slots.set slot none)
      substitution.slots
  trail := substitution.trail.take checkpoint

end Substitution

end Datalog
