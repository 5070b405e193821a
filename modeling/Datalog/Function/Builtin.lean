import Datalog.Function.Registry
import Datalog.MachineInt

/-!
# Built-in functions

Integer arithmetic and comparison, and the concatenation of texts.
-/

namespace Datalog
namespace Builtin

/-- The integer that an argument stands for. -/
def intArg (store : TermStore) (arg : TermId) : Except Fault Int64 :=
  match store.int? arg with
  | some value => .ok value
  | none => .error (.message ("expected integer, got " ++ store.render arg))

def intArgs (store : TermStore) : List TermId → Except Fault (Int64 × Int64)
  | [left, right] => do
      let left ← intArg store left
      let right ← intArg store right
      .ok (left, right)
  | args => .error (.message s!"expected 2 arguments, got {args.length}")

/-- The texts that the arguments stand for, one after another. -/
def concatArgs (store : TermStore) : List TermId → Except Fault String
  | [] => .ok ""
  | arg :: args =>
      match store.str? arg with
      | some text => (concatArgs store args).map (text ++ ·)
      | none => .error (.message ("expected string, got " ++ store.render arg))

/-- A function whose result is a term computed from what its arguments stand for. -/
def ofTerm (compute : TermStore → List TermId → Except Fault GroundTerm) : Function where
  apply store args :=
    match compute store args with
    | .ok term => let (id, store) := store.intern term; (.ok id, store)
    | .error fault => (.error fault, store)
  extends_apply store args := by
    cases compute store args with
    | ok term => exact TermStore.extends_intern store term
    | error fault => exact .refl store

def ofIntOp (op : Int64 → Int64 → Except String Int64) : Function :=
  ofTerm fun store args => do
    let (left, right) ← intArgs store args
    match op left right with
    | .ok value => .ok (.int value)
    | .error text => .error (.message text)

def ofIntTest (test : Int64 → Int64 → Bool) : Function :=
  ofTerm fun store args => do
    let (left, right) ← intArgs store args
    .ok (.bool (test left right))

/-- A result that fits, or the complaint that it does not. -/
def orOverflow : Option Int64 → Except String Int64
  | some value => .ok value
  | none => .error "overflow"

/-- Division rounds toward zero. -/
def divide (left right : Int64) : Except String Int64 :=
  if right = 0 then .error "division by zero" else orOverflow (MachineInt.div? left right)

/-- The concatenation of any number of texts. -/
def concat : Function :=
  ofTerm fun store args => (concatArgs store args).map .str

end Builtin

namespace Registry

def builtins : Registry where
  entries :=
    [ ("add", .native (Builtin.ofIntOp fun left right =>
        Builtin.orOverflow (MachineInt.add? left right))),
      ("sub", .native (Builtin.ofIntOp fun left right =>
        Builtin.orOverflow (MachineInt.sub? left right))),
      ("mul", .native (Builtin.ofIntOp fun left right =>
        Builtin.orOverflow (MachineInt.mul? left right))),
      ("div", .native (Builtin.ofIntOp Builtin.divide)),
      ("lt", .native (Builtin.ofIntTest fun left right => left < right)),
      ("le", .native (Builtin.ofIntTest fun left right => left ≤ right)),
      ("concat", .native Builtin.concat) ]

end Registry

end Datalog
