/-!
# JSON values

Objects keep their members in the order in which they were written, repeated keys included.
Numbers are split by what can be done with them: an integer that fits a machine word is exact, and
any other number is only kept as it was written.
-/

namespace Datalog

/-- A JSON value. -/
inductive Json where
  | null
  | bool (value : Bool)
  /-- An integer from `-2 ^ 63` to `2 ^ 64 - 1`, other than a negated zero. -/
  | int (value : Int)
  /-- Any other number, as written. -/
  | real (written : String)
  | str (value : String)
  | arr (items : List Json)
  | obj (members : List (String × Json))
  deriving Inhabited

namespace Json

/-- Why a text is not accepted. -/
inductive Fault where
  /-- The text is no JSON. -/
  | malformed
  /-- The text is JSON but does not have the required shape. -/
  | misshapen
  /-- The text stops too early. -/
  | ended
  deriving DecidableEq, Inhabited

/-- How many arrays and objects a text may nest. -/
def nestingLimit : Nat := 127

/-- The first member of an object with a given key. -/
def member? (key : String) (value : Json) : Option Json :=
  match value with
  | .obj members => (members.find? (·.1 = key)).map (·.2)
  | _ => none

end Json

end Datalog
