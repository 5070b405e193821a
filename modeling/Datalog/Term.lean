import Datalog.Text.Quoted

/-!
# Terms

A term is built from variables, constants, constructors and function calls.  Constructors build
values and can be taken apart again when a term is matched; calls are evaluated and cannot.
-/

namespace Datalog

/-- A term of a fact, a rule or a query. -/
inductive Term where
  | var (name : String)
  | bool (value : Bool)
  | int (value : Int64)
  | str (value : String)
  | ctor (name : String) (args : List Term)
  | call (function : String) (args : List Term)
  deriving Inhabited

namespace Term

mutual

def decEq : (left right : Term) → Decidable (left = right)
  | .var name, .var name' => decidable_of_iff (name = name') (by simp)
  | .bool value, .bool value' => decidable_of_iff (value = value') (by simp)
  | .int value, .int value' => decidable_of_iff (value = value') (by simp)
  | .str value, .str value' => decidable_of_iff (value = value') (by simp)
  | .ctor name args, .ctor name' args' =>
      have := decEqList args args'
      decidable_of_iff (name = name' ∧ args = args') (by simp)
  | .call function args, .call function' args' =>
      have := decEqList args args'
      decidable_of_iff (function = function' ∧ args = args') (by simp)
  | .var _, .bool _ | .var _, .int _ | .var _, .str _ | .var _, .ctor .. | .var _, .call ..
  | .bool _, .var _ | .bool _, .int _ | .bool _, .str _ | .bool _, .ctor .. | .bool _, .call ..
  | .int _, .var _ | .int _, .bool _ | .int _, .str _ | .int _, .ctor .. | .int _, .call ..
  | .str _, .var _ | .str _, .bool _ | .str _, .int _ | .str _, .ctor .. | .str _, .call ..
  | .ctor .., .var _ | .ctor .., .bool _ | .ctor .., .int _ | .ctor .., .str _
  | .ctor .., .call .. | .call .., .var _ | .call .., .bool _ | .call .., .int _
  | .call .., .str _ | .call .., .ctor .. => isFalse (by simp)

def decEqList : (left right : List Term) → Decidable (left = right)
  | [], [] => isTrue rfl
  | [], _ :: _ | _ :: _, [] => isFalse (by simp)
  | term :: terms, term' :: terms' =>
      have := decEq term term'
      have := decEqList terms terms'
      decidable_of_iff (term = term' ∧ terms = terms') (by simp)

end

instance : DecidableEq Term := decEq

/-- The name of a term that is a bare variable. -/
def asVar : Term → Option String
  | .var name => some name
  | _ => none

mutual

/-- The occurrences of variables in a term, from left to right. -/
def vars : Term → List String
  | .var name => [name]
  | .bool _ | .int _ | .str _ => []
  | .ctor _ args | .call _ args => varsList args

def varsList : List Term → List String
  | [] => []
  | term :: terms => vars term ++ varsList terms

end

mutual

/-- The occurrences of variables underneath a call.  They must have values before the term can be
matched, because a call cannot be inverted. -/
def callVars : Term → List String
  | .var _ | .bool _ | .int _ | .str _ => []
  | .ctor _ args => callVarsList args
  | .call _ args => varsList args

def callVarsList : List Term → List String
  | [] => []
  | term :: terms => callVars term ++ callVarsList terms

end

mutual

def isGround : Term → Bool
  | .var _ => false
  | .bool _ | .int _ | .str _ => true
  | .ctor _ args | .call _ args => isGroundList args

def isGroundList : List Term → Bool
  | [] => true
  | term :: terms => isGround term && isGroundList terms

end

mutual

def containsCall : Term → Bool
  | .var _ | .bool _ | .int _ | .str _ => false
  | .ctor _ args => containsCallList args
  | .call _ _ => true

def containsCallList : List Term → Bool
  | [] => false
  | term :: terms => containsCall term || containsCallList terms

end

def renderBool (value : Bool) : String :=
  if value then "true" else "false"

/-- The written form of an integer, in decimal. -/
def renderInt (value : Int64) : String :=
  toString value.toInt

/-- The written form of a constructor applied to arguments already written; a constructor without
arguments is its bare name. -/
def renderCtor (name : String) : List String → String
  | [] => name
  | args => name ++ Text.parenthesized args

mutual

def render : Term → String
  | .var name => name
  | .bool value => renderBool value
  | .int value => renderInt value
  | .str value => Text.quote value
  | .ctor name args => renderCtor name (renderList args)
  | .call function args => "@" ++ function ++ Text.parenthesized (renderList args)

def renderList : List Term → List String
  | [] => []
  | term :: terms => render term :: renderList terms

end

theorem varsList_eq_flatMap (terms : List Term) : varsList terms = terms.flatMap vars := by
  induction terms with
  | nil => simp [varsList]
  | cons term terms ih => simp [varsList, ih]

theorem callVarsList_eq_flatMap (terms : List Term) :
    callVarsList terms = terms.flatMap callVars := by
  induction terms with
  | nil => simp [callVarsList]
  | cons term terms ih => simp [callVarsList, ih]

theorem containsCallList_eq_any (terms : List Term) :
    containsCallList terms = terms.any containsCall := by
  induction terms with
  | nil => simp [containsCallList]
  | cons term terms ih => simp [containsCallList, ih]

end Term

end Datalog
