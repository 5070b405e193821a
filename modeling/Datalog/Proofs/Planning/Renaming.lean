import Datalog.Proofs.Planning.Rewording

/-!
# Renaming variables before planning

Planning numbers the variables of a rule and forgets their names.  Where variables are renamed so that
different ones stay different, and the names that isolated calls are given stay as they are, the same
literals are chosen, the same indices are requested and the same plans are made; only the rule that a plan
was made from has been renamed.
-/

namespace Datalog

variable {newName : String → String}

/-! ## Renaming -/

namespace Term

mutual

def rename (newName : String → String) : Term → Term
  | .var name => .var (newName name)
  | .bool value => .bool value
  | .int value => .int value
  | .str value => .str value
  | .ctor name args => .ctor name (renameList newName args)
  | .call function args => .call function (renameList newName args)

def renameList (newName : String → String) : List Term → List Term
  | [] => []
  | term :: terms => rename newName term :: renameList newName terms

end

theorem renameList_eq_map (terms : List Term) :
    renameList newName terms = terms.map (rename newName) := by
  induction terms with
  | nil => rfl
  | cons term terms ih => rw [renameList, ih, List.map_cons]

mutual

theorem vars_rename : (term : Term) → (term.rename newName).vars = term.vars.map newName
  | .var _ | .bool _ | .int _ | .str _ => rfl
  | .ctor _ args | .call _ args => by
      rw [rename, vars, vars]
      exact varsList_renameList args

theorem varsList_renameList : (terms : List Term) →
    varsList (renameList newName terms) = (varsList terms).map newName
  | [] => rfl
  | term :: terms => by
      rw [renameList, varsList, varsList, vars_rename term, varsList_renameList terms, List.map_append]

end

mutual

theorem callVars_rename : (term : Term) →
    (term.rename newName).callVars = term.callVars.map newName
  | .var _ | .bool _ | .int _ | .str _ => rfl
  | .ctor _ args => by
      rw [rename, callVars, callVars]
      exact callVarsList_renameList args
  | .call _ args => by
      rw [rename, callVars, callVars]
      exact varsList_renameList args

theorem callVarsList_renameList : (terms : List Term) →
    callVarsList (renameList newName terms) = (callVarsList terms).map newName
  | [] => rfl
  | term :: terms => by
      rw [renameList, callVarsList, callVarsList, callVars_rename term,
        callVarsList_renameList terms, List.map_append]

end

mutual

theorem containsCall_rename : (term : Term) →
    (term.rename newName).containsCall = term.containsCall
  | .var _ | .bool _ | .int _ | .str _ | .call .. => rfl
  | .ctor _ args => by
      rw [rename, containsCall, containsCall]
      exact containsCallList_renameList args

theorem containsCallList_renameList : (terms : List Term) →
    containsCallList (renameList newName terms) = containsCallList terms
  | [] => rfl
  | term :: terms => by
      rw [renameList, containsCallList, containsCallList, containsCall_rename term,
        containsCallList_renameList terms]

end

theorem asVar_rename (term : Term) : (term.rename newName).asVar = term.asVar.map newName := by
  cases term <;> rfl

mutual

theorem rename_id : (term : Term) → term.rename id = term
  | .var _ | .bool _ | .int _ | .str _ => rfl
  | .ctor _ args | .call _ args => by rw [rename, renameList_id args]

theorem renameList_id : (terms : List Term) → renameList id terms = terms
  | [] => rfl
  | term :: terms => by rw [renameList, rename_id term, renameList_id terms]

end

end Term

def Atom.rename (newName : String → String) (atom : Atom) : Atom :=
  { atom with args := Term.renameList newName atom.args }

def Literal.rename (newName : String → String) : Literal → Literal
  | .unification lhs rhs negated =>
      .unification (lhs.rename newName) (rhs.rename newName) negated
  | .predicate atom => .predicate (atom.rename newName)

def Rule.rename (newName : String → String) (rule : Rule) : Rule where
  head := rule.head.rename newName
  body := rule.body.map (Literal.rename newName)

/-- Rename the variables of the rules and of the query. -/
def Program.rename (newName : String → String) (program : Program) : Program :=
  { program with
    rules := program.rules.map (Rule.rename newName)
    query := program.query.map (Atom.rename newName) }

def BodyLiteral.rename (newName : String → String) (literal : BodyLiteral) : BodyLiteral :=
  { literal with literal := literal.literal.rename newName }

def DeltaRule.rename (newName : String → String) (rule : DeltaRule) : DeltaRule where
  head := rule.head.rename newName
  body := rule.body.map (BodyLiteral.rename newName)

/-- Rename the variables of the rule that a plan was made from. -/
def RulePlan.rename (newName : String → String) (plan : RulePlan) : RulePlan :=
  { plan with source := plan.source.rename newName }

theorem Atom.vars_rename (atom : Atom) : (atom.rename newName).vars = atom.vars.map newName :=
  Term.varsList_renameList atom.args

theorem Literal.vars_rename (literal : Literal) :
    (literal.rename newName).vars = literal.vars.map newName := by
  cases literal with
  | unification lhs rhs negated => exact Term.varsList_renameList [lhs, rhs]
  | predicate atom => exact Term.varsList_renameList atom.args

theorem Atom.rename_id (atom : Atom) : atom.rename id = atom := by
  rw [rename, Term.renameList_id]

theorem Literal.rename_id (literal : Literal) : literal.rename id = literal := by
  cases literal with
  | unification => rw [rename, Term.rename_id, Term.rename_id]
  | predicate atom => rw [rename, Atom.rename_id]

theorem BodyLiteral.rename_id (literal : BodyLiteral) : literal.rename id = literal := by
  rw [rename, Literal.rename_id]

theorem BodyLiteral.vars_rename (literal : BodyLiteral) :
    (literal.rename newName).vars = literal.vars.map newName :=
  literal.literal.vars_rename

theorem DeltaRule.bodyVars_rename (body : List BodyLiteral) :
    (body.map (BodyLiteral.rename newName)).flatMap BodyLiteral.vars =
      (body.flatMap BodyLiteral.vars).map newName := by
  rw [List.flatMap_map, List.map_flatMap]
  exact List.flatMap_congr fun literal _ => literal.vars_rename

theorem DeltaRule.occurrences_rename (rule : DeltaRule) :
    (rule.rename newName).occurrences = rule.occurrences.map newName := by
  unfold occurrences
  rw [List.map_append]
  exact congrArg₂ _ rule.head.vars_rename (bodyVars_rename rule.body)

theorem DeltaRule.deltaPosition?_rename (rule : DeltaRule) :
    (rule.rename newName).deltaPosition? = rule.deltaPosition? := by
  unfold deltaPosition? rename
  rw [List.findIdx?_map]
  rfl

/-! ## Choosing literals -/

/-- Variables are counted in step if the new name of each occurs as often as the old one. -/
def CountsAlike (newName : String → String) (count count' : String → Nat) : Prop :=
  ∀ name, count' (newName name) = count name

theorem DeltaRule.countsAlike (injective : newName.Injective) (rule : DeltaRule) :
    CountsAlike newName rule.varCount (rule.rename newName).varCount := by
  intro name
  unfold varCount
  rw [occurrences_rename, List.count_map_of_injective _ _ injective]

theorem contains_map (injective : newName.Injective) (names : List String) (name : String) :
    (names.map newName).contains (newName name) = names.contains name := by
  rw [Bool.eq_iff_iff, List.contains_iff_mem, List.contains_iff_mem,
    List.mem_map_of_injective injective]

theorem all_contains_map (injective : newName.Injective) (names bound : List String) :
    (names.map newName).all (bound.map newName).contains = names.all bound.contains := by
  rw [List.all_map]
  exact congrArg names.all (funext fun name => contains_map injective bound name)

namespace JoinOrder

variable {count count' : String → Nat} {bound : List String}

theorem isBound_rename (injective : newName.Injective) (bound : List String) (term : Term) :
    isBound (bound.map newName) (term.rename newName) = isBound bound term := by
  unfold isBound
  rw [term.vars_rename, all_contains_map injective]

theorem isMatchable_rename (injective : newName.Injective) (bound : List String) (term : Term) :
    isMatchable (bound.map newName) (term.rename newName) = isMatchable bound term := by
  unfold isMatchable
  rw [term.callVars_rename, all_contains_map injective]

theorem isSingleton_rename (alike : CountsAlike newName count count') (term : Term) :
    isSingleton count' (term.rename newName) = isSingleton count term := by
  unfold isSingleton
  rw [term.asVar_rename]
  cases term.asVar with
  | none => rfl
  | some name => simp [alike name]

theorem isEvaluable_rename (injective : newName.Injective)
    (alike : CountsAlike newName count count') (bound : List String) (literal : Literal) :
    isEvaluable count' (bound.map newName) (literal.rename newName) =
      isEvaluable count bound literal := by
  cases literal with
  | unification lhs rhs negated =>
      cases negated <;>
        simp only [Literal.rename, isEvaluable, isBound_rename injective,
          isMatchable_rename injective]
  | predicate atom =>
      simp only [Literal.rename, Atom.rename, isEvaluable, Term.renameList_eq_map, List.all_map,
        Function.comp_def, isBound_rename injective, isMatchable_rename injective,
        isSingleton_rename alike]

theorem percentBound_rename (injective : newName.Injective) (bound : List String) (atom : Atom) :
    percentBound (bound.map newName) (atom.rename newName) = percentBound bound atom := by
  simp only [percentBound, Atom.rename, Term.renameList_eq_map, List.isEmpty_map, List.length_map,
    List.filter_map, Function.comp_def, isBound_rename injective]

theorem score_rename (injective : newName.Injective) (optimization : Optimization)
    (bound : List String) (literal : BodyLiteral) :
    score optimization (bound.map newName) (literal.rename newName) =
      score optimization bound literal := by
  obtain ⟨literal, delta⟩ := literal
  cases literal with
  | unification => rfl
  | predicate atom =>
      simp only [score, BodyLiteral.rename, Literal.rename, percentBound_rename injective]
      simp only [Atom.rename, Term.renameList_eq_map, List.isEmpty_map]

theorem pick?_rename (injective : newName.Injective) (alike : CountsAlike newName count count')
    (optimization : Optimization) (bound : List String) (body : List BodyLiteral) :
    pick? optimization count' (bound.map newName) (body.map (BodyLiteral.rename newName)) =
      (pick? optimization count bound body).map fun picked =>
        (picked.1.rename newName, picked.2.map (BodyLiteral.rename newName)) := by
  induction body with
  | nil => rfl
  | cons literal body ih =>
      have evaluable : isEvaluable count' (bound.map newName) (literal.rename newName).literal =
          isEvaluable count bound literal.literal :=
        isEvaluable_rename injective alike bound literal.literal
      rw [List.map_cons, pick?, pick?, ih]
      cases pick? optimization count bound body with
      | none =>
          simp only [Option.map_none, evaluable]
          split <;> rfl
      | some picked =>
          simp only [Option.map_some, evaluable, score_rename injective]
          split <;> rfl

theorem arrangeFrom_rename (injective : newName.Injective)
    (alike : CountsAlike newName count count') (optimization : Optimization) (places : Nat)
    (bound : List String) (body : List BodyLiteral) :
    arrangeFrom optimization count' places (bound.map newName)
        (body.map (BodyLiteral.rename newName)) =
      (arrangeFrom optimization count places bound body).map
        (List.map (BodyLiteral.rename newName)) := by
  induction places generalizing bound body with
  | zero => rfl
  | succ places ih =>
      rw [arrangeFrom, arrangeFrom, pick?_rename injective alike]
      cases pick? optimization count bound body with
      | none => rfl
      | some picked =>
          have next := ih (bound ++ picked.1.vars) picked.2
          rw [List.map_append, ← picked.1.vars_rename] at next
          simp only [Option.map_some, next, Option.map_map]
          rfl

end JoinOrder

/-! ## Ordering rules -/

namespace DeltaRule

/-- A variable of the head is unbound after renaming exactly if it was before. -/
theorem unboundHeadVariables_rename (injective : newName.Injective) (rule : DeltaRule) :
    (rule.rename newName).unboundHeadVariables = [] ↔ rule.unboundHeadVariables = [] := by
  have nothing : ∀ rule : DeltaRule, rule.unboundHeadVariables = [] ↔
      ∀ name ∈ rule.head.vars, name ∈ rule.body.flatMap BodyLiteral.vars := by
    intro rule
    rw [unboundHeadVariables, ← List.length_eq_zero_iff, List.length_mergeSort,
      List.length_eq_zero_iff, List.filter_eq_nil_iff]
    simp
  rw [nothing, nothing]
  change (∀ name ∈ (rule.head.rename newName).vars,
    name ∈ (rule.body.map (BodyLiteral.rename newName)).flatMap BodyLiteral.vars) ↔ _
  rw [Atom.vars_rename, bodyVars_rename, List.forall_mem_map]
  simp only [List.mem_map_of_injective injective]

theorem ordered_rename (injective : newName.Injective) (rule : DeltaRule)
    (optimization : Optimization) :
    Echoes (rename newName) (rule.ordered optimization)
      ((rule.rename newName).ordered optimization) := by
  have arranged := JoinOrder.arrangeFrom_rename injective (rule.countsAlike injective) optimization
    rule.body.length [] rule.body
  have unbound := rule.unboundHeadVariables_rename injective
  unfold ordered JoinOrder.arrange
  rw [show (rule.rename newName).body.length = rule.body.length from List.length_map _]
  rw [show JoinOrder.arrangeFrom optimization (rule.rename newName).varCount rule.body.length []
    (rule.rename newName).body = _ from arranged]
  cases JoinOrder.arrangeFrom optimization rule.varCount rule.body.length [] rule.body with
  | none => trivial
  | some body =>
      cases none : rule.unboundHeadVariables with
      | nil =>
          rw [unbound.mpr none]
          rfl
      | cons name names =>
          cases none' : (rule.rename newName).unboundHeadVariables with
          | nil =>
              rw [unbound.mp none'] at none
              cases none
          | cons => trivial

theorem deltaFirstFrom_rename (seen : Bool) (body : List BodyLiteral) :
    deltaFirstFrom seen (body.map (BodyLiteral.rename newName)) = deltaFirstFrom seen body := by
  induction body generalizing seen with
  | nil => rfl
  | cons literal body ih =>
      obtain ⟨literal, delta⟩ := literal
      cases literal with
      | unification => exact ih seen
      | predicate => exact congrArg (!(seen && delta) && ·) (ih true)

theorem requireDeltaFirst_rename (rule : DeltaRule) :
    Echoes id rule.requireDeltaFirst (rule.rename newName).requireDeltaFirst := by
  unfold requireDeltaFirst isDeltaFirst
  rw [show deltaFirstFrom false (rule.rename newName).body = deltaFirstFrom false rule.body from
    deltaFirstFrom_rename false rule.body]
  split <;> trivial

/-! ## Variants -/

/-- The names that are given to isolated calls stay as they are. -/
def KeepsIsolated (newName : String → String) : Prop :=
  ∀ index, newName (isolatedName index) = isolatedName index

theorem isolateArgs_rename (keeps : KeepsIsolated newName) (next : Nat) (args : List Term) :
    isolateArgs next (Term.renameList newName args) =
      (Term.renameList newName (isolateArgs next args).1,
        (isolateArgs next args).2.1.map (BodyLiteral.rename newName), (isolateArgs next args).2.2) := by
  induction args generalizing next with
  | nil => rfl
  | cons arg args ih =>
      have kept : (isolatedVar next).rename newName = isolatedVar next :=
        congrArg Term.var (keeps next)
      rw [Term.renameList, isolateArgs, isolateArgs, arg.containsCall_rename, ih, ih]
      split
      · simp only [Term.renameList, List.map_cons, BodyLiteral.rename, Literal.rename, kept]
      · rfl

theorem isolateBody_rename (keeps : KeepsIsolated newName) (next : Nat) (body : List BodyLiteral) :
    isolateBody next (body.map (BodyLiteral.rename newName)) =
      (isolateBody next body).map (BodyLiteral.rename newName) := by
  induction body generalizing next with
  | nil => rfl
  | cons literal body ih =>
      obtain ⟨literal, delta⟩ := literal
      cases literal with
      | unification => exact congrArg _ (ih next)
      | predicate atom =>
          cases delta with
          | false => exact congrArg _ (ih next)
          | true =>
              have args := isolateArgs_rename keeps next atom.args
              simp only [List.map_cons, BodyLiteral.rename, Literal.rename, Atom.rename, isolateBody,
                args, ih, List.map_append]

theorem isolateCalls_rename (keeps : KeepsIsolated newName) (rule : DeltaRule) :
    (rule.rename newName).isolateCalls = rule.isolateCalls.rename newName :=
  congrArg (mk _) (isolateBody_rename keeps 0 rule.body)

theorem recursivePositions_rename (rule : Rule) (stratum : List RelationSymbol) :
    recursivePositions (rule.rename newName) stratum = recursivePositions rule stratum := by
  unfold recursivePositions Rule.rename
  rw [List.zipIdx_map, List.filterMap_map]
  apply List.filterMap_congr
  rintro ⟨literal, position⟩ -
  cases literal <;> rfl

theorem markedAt_rename (rule : Rule) (position : Nat) :
    markedAt (rule.rename newName) position = (markedAt rule position).rename newName := by
  unfold markedAt Rule.rename rename
  refine congrArg (mk _) (List.ext_getElem (by simp) fun place _ _ => ?_)
  simp [BodyLiteral.rename]

theorem variants_rename (rule : Rule) (stratum : List RelationSymbol) :
    variants (rule.rename newName) stratum = (variants rule stratum).map (rename newName) := by
  unfold variants
  rw [recursivePositions_rename]
  cases recursivePositions rule stratum with
  | nil => simp [ofRule, Rule.rename, rename, BodyLiteral.rename]
  | cons position positions =>
      simp only [List.map_map, Function.comp_def]
      exact List.map_congr_left fun position _ => markedAt_rename rule position

end DeltaRule

/-! ## Planning terms and literals -/

namespace Planner

/-- Rename the variables that have slots. -/
def State.rename (newName : String → String) (state : State) : State :=
  { state with names := state.names.map newName }

/-- Rules are planned in step if the same functions are registered and deltas are looked up in the same
stores. -/
structure Context.Alike (context context' : Context) : Prop where
  functions_eq : context'.functions = context.functions
  separateDeltas_eq : context'.separateDeltas = context.separateDeltas

variable {context context' : Context} {count count' : String → Nat}

/-- Steps of planning that agree where variables have been renamed. -/
abbrev AgreesRenamed (newName : String → String) {α : Type} (first second : Planner α) : Prop :=
  Agrees (State.rename newName) id first second

theorem slotOf_agrees (injective : newName.Injective) (name : String) :
    AgreesRenamed newName (slotOf name) (slotOf (newName name)) := by
  unfold slotOf
  refine .get_bind fun state => ?_
  have sameSlot : (state.rename newName).names.findIdx? (· = newName name) =
      state.names.findIdx? (· = name) := by
    unfold State.rename
    rw [List.findIdx?_map]
    simp only [Function.comp_def, injective.eq_iff]
  rw [sameSlot]
  split
  · exact .pure
  · have added : (state.rename newName).names ++ [newName name] =
        (state.names ++ [name]).map newName := by
      simp [State.rename]
    have count : (state.rename newName).names.length = state.names.length := List.length_map _
    rw [count]
    intro other
    exact congrArg (fun names => (state.names.length, ({ state with names } : State))) added

theorem constant_agrees (term : GroundTerm) :
    AgreesRenamed newName (constant term) (constant term) :=
  fun _ => rfl

mutual

theorem term_agrees (injective : newName.Injective) (alike : context.Alike context') :
    (described : Term) →
      AgreesRenamed newName (term context described) (term context' (described.rename newName))
  | .var name => (slotOf_agrees injective name).bind fun _ => .pure
  | .bool _ | .int _ | .str _ => constant_agrees _
  | .ctor name args => by
      unfold Term.rename term
      apply (termList_agrees injective alike args).bind
      intro plans
      dsimp only [id]
      split
      · exact constant_agrees _
      · exact .pure
  | .call function args => by
      unfold Term.rename term
      rw [alike.functions_eq]
      split
      · exact (termList_agrees injective alike args).bind fun _ => .pure
      · exact .throw

theorem termList_agrees (injective : newName.Injective) (alike : context.Alike context') :
    (terms : List Term) →
      AgreesRenamed newName (termList context terms)
        (termList context' (Term.renameList newName terms))
  | [] => .pure
  | first :: rest => by
      unfold Term.renameList termList
      exact (term_agrees injective alike first).bind fun _ =>
        (termList_agrees injective alike rest).bind fun _ => .pure

end

theorem bindingOf_rename (injective : newName.Injective) (alike : CountsAlike newName count count')
    (bound : List String) (arg : Term) :
    bindingOf count' (bound.map newName) (arg.rename newName) = bindingOf count bound arg := by
  unfold bindingOf
  rw [JoinOrder.isBound_rename injective, JoinOrder.isSingleton_rename alike]

theorem checkArity_agrees (described : Atom) :
    AgreesRenamed newName (checkArity described) (checkArity (described.rename newName)) := by
  unfold checkArity
  have same : (described.rename newName).args.length = described.args.length := by
    rw [Atom.rename, Term.renameList_eq_map, List.length_map]
  rw [same, show (described.rename newName).symbol = described.symbol from rfl]
  split
  · exact .pure
  · exact .throw

theorem requestIndex_agrees (alike : context.Alike context') (symbol : RelationSymbol)
    (pattern : Pattern) (delta : Bool) :
    AgreesRenamed newName (requestIndex context symbol pattern delta)
      (requestIndex context' symbol pattern delta) := by
  unfold requestIndex
  rw [alike.separateDeltas_eq]
  refine .get_bind fun state => ?_
  dsimp only
  split
  · apply (Agrees.lift (Echoes.refl (state.resources.delta.request symbol pattern))).bind
    exact fun result => .set_bind .pure
  · apply (Agrees.lift (Echoes.refl (state.resources.main.request symbol pattern))).bind
    exact fun result => .set_bind .pure

theorem atom_agrees (injective : newName.Injective) (alike : context.Alike context')
    (counts : CountsAlike newName count count') (bound : List String) (delta : Bool)
    (described : Atom) :
    AgreesRenamed newName (atom context count bound delta described)
      (atom context' count' (bound.map newName) delta (described.rename newName)) := by
  have pattern : (described.rename newName).args.map (bindingOf count' (bound.map newName)) =
      described.args.map (bindingOf count bound) := by
    rw [Atom.rename, Term.renameList_eq_map, List.map_map]
    exact List.map_congr_left fun arg _ => bindingOf_rename injective counts bound arg
  unfold atom
  apply (checkArity_agrees described).bind
  intro _
  dsimp only
  rw [pattern]
  exact (termList_agrees injective alike described.args).bind fun _ =>
    (requestIndex_agrees alike described.symbol _ delta).bind fun _ => .pure

theorem literal_agrees (injective : newName.Injective) (alike : context.Alike context')
    (counts : CountsAlike newName count count') (bound : List String) (described : BodyLiteral) :
    AgreesRenamed newName (literal context count bound described)
      (literal context' count' (bound.map newName) (described.rename newName)) := by
  obtain ⟨described, delta⟩ := described
  cases described with
  | unification lhs rhs negated =>
      cases negated with
      | true =>
          exact (term_agrees injective alike lhs).bind fun _ =>
            (term_agrees injective alike rhs).bind fun _ => .pure
      | false =>
          simp only [literal, BodyLiteral.rename, Literal.rename, JoinOrder.isBound_rename injective]
          split
          · exact (term_agrees injective alike lhs).bind fun _ =>
              (term_agrees injective alike rhs).bind fun _ => .pure
          · exact (term_agrees injective alike rhs).bind fun _ =>
              (term_agrees injective alike lhs).bind fun _ => .pure
  | predicate described =>
      exact (atom_agrees injective alike counts bound delta described).bind fun _ => .pure

theorem body_agrees (injective : newName.Injective) (alike : context.Alike context')
    (counts : CountsAlike newName count count') (bound : List String)
    (described : List BodyLiteral) :
    AgreesRenamed newName (body context count bound described)
      (body context' count' (bound.map newName) (described.map (BodyLiteral.rename newName))) := by
  induction described generalizing bound with
  | nil => exact .pure
  | cons first rest ih =>
      have next := ih (bound ++ first.vars)
      rw [List.map_append, ← first.vars_rename] at next
      exact (literal_agrees injective alike counts bound first).bind fun _ =>
        next.bind fun _ => .pure

end Planner

/-! ## Planning rules -/

variable {functions : Registry} {config : Config}

/-- The same plan is made of a renamed rule. -/
theorem RulePlan.ofRule_rename (injective : newName.Injective) (separateDeltas : Bool)
    (rule : DeltaRule) (resources : Planner.Resources) :
    Echoes (Prod.map (rename newName) id) (ofRule functions separateDeltas rule resources)
      (ofRule functions separateDeltas (rule.rename newName) resources) := by
  let context : Planner.Context := { functions, site := .inRule rule, separateDeltas }
  let context' : Planner.Context :=
    { functions, site := .inRule (rule.rename newName), separateDeltas }
  have alike : context.Alike context' := ⟨rfl, rfl⟩
  have planned : Planner.AgreesRenamed newName
      (do
        let body ← Planner.body context rule.varCount [] rule.body
        let head ← Planner.termList context rule.head.args
        return (head, body))
      (do
        let body ← Planner.body context' (rule.rename newName).varCount []
          (rule.rename newName).body
        let head ← Planner.termList context' (rule.rename newName).head.args
        return (head, body)) := by
    apply (Planner.body_agrees injective alike (rule.countsAlike injective) [] rule.body).bind
    intro body
    exact (Planner.termList_agrees injective alike rule.head.args).bind fun _ => .pure
  apply (planned { resources }).bind
  rintro ⟨⟨head, body⟩, state⟩
  have slots : (state.rename newName).names.length = state.names.length := List.length_map _
  exact congrArg (fun slots => (RulePlan.mk (rule.rename newName) head body slots, state.resources))
    slots

theorem QueryPlan.ofAtom_rename (injective : newName.Injective) (query : Atom)
    (resources : Planner.Resources) :
    Echoes id (ofAtom functions query resources)
      (ofAtom functions (query.rename newName) resources) := by
  let context : Planner.Context := { functions, site := .inQuery query, separateDeltas := false }
  let context' : Planner.Context :=
    { functions, site := .inQuery (query.rename newName), separateDeltas := false }
  have alike : context.Alike context' := ⟨rfl, rfl⟩
  have planned : Planner.AgreesRenamed newName
      (do
        Planner.checkArity query
        Planner.termList context query.args)
      (do
        Planner.checkArity (query.rename newName)
        Planner.termList context' (query.rename newName).args) :=
    (Planner.checkArity_agrees query).bind fun _ =>
      Planner.termList_agrees injective alike query.args
  apply (planned { resources }).bind
  rintro ⟨args, state⟩
  have slots : (state.rename newName).names.length = state.names.length := List.length_map _
  exact congrArg (fun slots => (QueryPlan.mk query.symbol args slots, state.resources)) slots

/-! ## Strata -/

theorem Rule.bodySigns_rename (rule : Rule) :
    (rule.rename newName).bodySigns = rule.bodySigns := by
  have atoms : (rule.rename newName).bodyAtoms = rule.bodyAtoms.map (Atom.rename newName) := by
    unfold bodyAtoms rename
    rw [List.filterMap_map, List.map_filterMap]
    apply List.filterMap_congr
    intro literal _
    cases literal <;> rfl
  rw [bodySigns, atoms, List.map_map]
  rfl

/-- Renaming variables makes no difference for planning. -/
def Rewording.renaming (newName : String → String) (injective : newName.Injective)
    (keeps : DeltaRule.KeepsIsolated newName) : Rewording where
  rule := Rule.rename newName
  variant := DeltaRule.rename newName
  query := Atom.rename newName
  rule_headSymbol _ := rfl
  rule_bodySigns := Rule.bodySigns_rename
  variant_headSymbol _ := rfl
  variant_deltaPosition? := DeltaRule.deltaPosition?_rename
  variants_rule := DeltaRule.variants_rename
  isolateCalls_variant := DeltaRule.isolateCalls_rename keeps
  ordered_variant := DeltaRule.ordered_rename injective
  requireDeltaFirst_variant := DeltaRule.requireDeltaFirst_rename
  ofRule_variant _ := RulePlan.ofRule_rename injective
  ofAtom_query _ := QueryPlan.ofAtom_rename injective

end Datalog
