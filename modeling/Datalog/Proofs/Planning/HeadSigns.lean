import Datalog.Proofs.Planning.Renaming

/-!
# The signs of heads and queries

Heads, queries and the atoms of bodies are atoms alike and may be marked as negated.  Planning reads the
sign of an atom in a body, but not the one of a head or of a query: a rule is planned as if its head were
not negated.  Only the messages of errors show the sign.
-/

namespace Datalog

def Atom.unsigned (atom : Atom) : Atom :=
  { atom with negated := false }

def Rule.unsigned (rule : Rule) : Rule :=
  { rule with head := rule.head.unsigned }

def DeltaRule.unsigned (rule : DeltaRule) : DeltaRule :=
  { rule with head := rule.head.unsigned }

/-- A program without the signs of the heads and of the query. -/
def Program.unsigned (program : Program) : Program :=
  { program with
    rules := program.rules.map Rule.unsigned
    query := program.query.map Atom.unsigned }

/-! ## Rules -/

namespace DeltaRule

theorem variants_unsigned (rule : Rule) (stratum : List RelationSymbol) :
    variants rule.unsigned stratum = (variants rule stratum).map unsigned := by
  have positions : recursivePositions rule.unsigned stratum = recursivePositions rule stratum := rfl
  unfold variants
  rw [positions]
  cases recursivePositions rule stratum with
  | nil => rfl
  | cons position positions =>
      rw [List.map_map]
      rfl

theorem ordered_unsigned (rule : DeltaRule) (optimization : Optimization) :
    Echoes unsigned (rule.ordered optimization) (rule.unsigned.ordered optimization) := by
  have arranged : JoinOrder.arrange optimization rule.unsigned.varCount rule.unsigned.body =
      JoinOrder.arrange optimization rule.varCount rule.body := rfl
  have unbound : rule.unsigned.unboundHeadVariables = rule.unboundHeadVariables := rfl
  unfold ordered
  rw [arranged, unbound]
  cases JoinOrder.arrange optimization rule.varCount rule.body with
  | none => trivial
  | some body => cases rule.unboundHeadVariables with
    | nil => rfl
    | cons => trivial

theorem requireDeltaFirst_unsigned (rule : DeltaRule) :
    Echoes id rule.requireDeltaFirst rule.unsigned.requireDeltaFirst := by
  have deltaFirst : rule.unsigned.isDeltaFirst = rule.isDeltaFirst := rfl
  unfold requireDeltaFirst
  rw [deltaFirst]
  split <;> trivial

end DeltaRule

/-! ## Plans -/

namespace Planner

variable {context context' : Context} {count : String → Nat}

theorem agrees_of_agreesRenamed_id {α : Type} {first second : Planner α}
    (agrees : AgreesRenamed id first second) : Agrees id id first second := by
  have same : State.rename id = id := by
    funext state
    simp [State.rename]
  rwa [AgreesRenamed, same] at agrees

/-- What is planned for terms depends on their place in error messages only. -/
theorem termList_agrees_of_alike (alike : context.Alike context') (terms : List Term) :
    Agrees id id (termList context terms) (termList context' terms) := by
  have agrees := agrees_of_agreesRenamed_id
    (termList_agrees Function.injective_id alike terms)
  rwa [Term.renameList_id] at agrees

theorem body_agrees_of_alike (alike : context.Alike context') (body : List BodyLiteral) :
    Agrees id id (Planner.body context count [] body) (Planner.body context' count [] body) := by
  have agrees := agrees_of_agreesRenamed_id
    (body_agrees Function.injective_id alike (fun _ => rfl : CountsAlike id count count) [] body)
  have same : body.map (BodyLiteral.rename id) = body :=
    (List.map_congr_left fun literal _ => literal.rename_id).trans (List.map_id body)
  rwa [same] at agrees

end Planner

variable {functions : Registry}

theorem RulePlan.ofRule_unsigned (separateDeltas : Bool) (rule : DeltaRule)
    (resources : Planner.Resources) :
    Echoes (Prod.map (fun plan : RulePlan => { plan with source := plan.source.unsigned }) id)
      (ofRule functions separateDeltas rule resources)
      (ofRule functions separateDeltas rule.unsigned resources) := by
  let context : Planner.Context := { functions, site := .inRule rule, separateDeltas }
  let context' : Planner.Context := { functions, site := .inRule rule.unsigned, separateDeltas }
  have alike : context.Alike context' := ⟨rfl, rfl⟩
  have planned : Agrees id id
      (do
        let body ← Planner.body context rule.varCount [] rule.body
        let head ← Planner.termList context rule.head.args
        return (head, body))
      (do
        let body ← Planner.body context' rule.unsigned.varCount [] rule.unsigned.body
        let head ← Planner.termList context' rule.unsigned.head.args
        return (head, body)) := by
    apply (Planner.body_agrees_of_alike alike rule.body).bind
    intro body
    exact (Planner.termList_agrees_of_alike alike rule.head.args).bind fun _ => .pure
  exact (planned { resources }).bind fun _ => rfl

theorem QueryPlan.ofAtom_unsigned (query : Atom) (resources : Planner.Resources) :
    Echoes id (ofAtom functions query resources) (ofAtom functions query.unsigned resources) := by
  let context : Planner.Context := { functions, site := .inQuery query, separateDeltas := false }
  let context' : Planner.Context :=
    { functions, site := .inQuery query.unsigned, separateDeltas := false }
  have alike : context.Alike context' := ⟨rfl, rfl⟩
  have checked : Agrees id id (Planner.checkArity query) (Planner.checkArity query.unsigned) := by
    intro state
    have same : Planner.checkArity query.unsigned = Planner.checkArity query := rfl
    rw [same, Prod.map_id]
    exact .refl _
  have planned : Agrees id id
      (do
        Planner.checkArity query
        Planner.termList context query.args)
      (do
        Planner.checkArity query.unsigned
        Planner.termList context' query.unsigned.args) :=
    checked.bind fun _ => Planner.termList_agrees_of_alike alike query.args
  exact (planned { resources }).bind fun _ => rfl

/-- Dropping the signs of heads and queries makes no difference for planning. -/
def Rewording.unsigning : Rewording where
  rule := Rule.unsigned
  variant := DeltaRule.unsigned
  query := Atom.unsigned
  rule_headSymbol _ := rfl
  rule_bodySigns _ := rfl
  variant_headSymbol _ := rfl
  variant_deltaPosition? _ := rfl
  variants_rule := DeltaRule.variants_unsigned
  isolateCalls_variant _ := rfl
  ordered_variant := DeltaRule.ordered_unsigned
  requireDeltaFirst_variant := DeltaRule.requireDeltaFirst_unsigned
  ofRule_variant _ := RulePlan.ofRule_unsigned
  ofAtom_query _ := QueryPlan.ofAtom_unsigned

end Datalog
