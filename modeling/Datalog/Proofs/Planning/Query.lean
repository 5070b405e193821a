import Datalog.Proofs.Planning.Rules

/-!
# Planning the query

The query is planned after the rules of all strata.  Its plan stands for the arguments of the query,
with one slot for each variable, and has as many columns as the relation that is asked about.
-/

namespace Datalog

/-- A plan was made from a query. -/
structure QueryPlan.Made (functions : Registry) (terms : TermStore) (names : List String)
    (plan : QueryPlan) (query : Atom) : Prop where
  symbol_eq : plan.symbol = query.symbol
  arity_eq : query.args.length = query.symbol.arity
  names_nodup : names.Nodup
  slots_eq : plan.slots = names.length
  represents : PlanTerm.RepresentsAll terms names plan.args query.args
  callable : PlanTerm.CallableAll functions plan.args

variable {functions : Registry} {resources later : Planner.Resources}

theorem QueryPlan.made_of_ofAtom (valid : resources.Valid) {query : Atom} {plan : QueryPlan}
    (planned : QueryPlan.ofAtom functions query resources = .ok (plan, later)) :
    later.Continues resources ∧ ∃ names, plan.Made functions later.terms names query := by
  let context : Planner.Context :=
    { functions, site := .inQuery query, separateDeltas := false }
  have start : Planner.State.Valid { resources } :=
    ⟨List.nodup_nil, valid, List.prefix_refl _, .refl _⟩
  have produces : Produces
      (do
        Planner.checkArity query
        Planner.termList context query.args)
      { resources } fun plans state => state.Continues { resources } ∧
        query.args.length = query.symbol.arity ∧
          Planner.PlannedAll functions state plans query.args := by
    refine .bind (Planner.checkArity_produces query) ?_
    rintro _ _ ⟨rfl, arity⟩
    exact (Planner.termList_produces context query.args start).mono fun _ _ done =>
      ⟨done.1, arity, done.2⟩
  unfold QueryPlan.ofAtom at planned
  simp only [bind, Except.bind] at planned
  split at planned
  · cases planned
  · next result ran =>
      cases planned
      obtain ⟨continues, arity, plannedAll⟩ := produces _ _ ran
      constructor
      · exact ⟨continues.valid, continues.extended⟩
      · exact ⟨_, rfl, arity, continues.names_nodup, rfl, plannedAll.represents, plannedAll.callable⟩

/-- There is a plan if there is a query, and it was made from the query. -/
theorem Evaluation.planQuery_produces {program : Program} (valid : resources.Valid) :
    Produces (planQuery program functions) resources fun planned later =>
      later.Continues resources ∧
        Option.Rel (fun plan query => ∃ names, plan.Made functions later.terms names query) planned
          program.query := by
  unfold planQuery
  cases program.query with
  | none => exact .pure ⟨.refl valid, .none⟩
  | some query =>
      refine .get_bind (.lift_bind ?_)
      rintro ⟨plan, later⟩ planned
      obtain ⟨continues, made⟩ := QueryPlan.made_of_ofAtom valid planned
      exact .set_bind (.pure ⟨continues, .some made⟩)

end Datalog
