/-!
# Machine integers

Arithmetic on signed 64-bit integers that notices when a result does not fit.
-/

namespace Datalog
namespace MachineInt

/-- The machine integer with a given value, if there is one. -/
def ofInt? (value : Int) : Option Int64 :=
  if Int64.minValue.toInt ≤ value && value ≤ Int64.maxValue.toInt then some (Int64.ofInt value)
  else none

def add? (left right : Int64) : Option Int64 :=
  ofInt? (left.toInt + right.toInt)

def sub? (left right : Int64) : Option Int64 :=
  ofInt? (left.toInt - right.toInt)

def mul? (left right : Int64) : Option Int64 :=
  ofInt? (left.toInt * right.toInt)

/-- The quotient rounded toward zero, if it fits. -/
def div? (left right : Int64) : Option Int64 :=
  ofInt? (left.toInt.tdiv right.toInt)

end MachineInt
end Datalog
