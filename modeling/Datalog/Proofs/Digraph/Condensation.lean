import Datalog.Proofs.Digraph.Components
import Mathlib.Data.List.Pairwise

/-!
# The condensation

Joining the components of a graph by the edges between them leaves a graph without cycles, so that
the order in which a search finishes the components respects every edge of the graph.
-/

namespace Datalog

namespace Digraph

variable {α : Type} [DecidableEq α] {graph : Digraph α} {first second node : α}
  {part other : List α}

/-! ## The component of a node -/

namespace IsComponent

theorem ne_nil (component : graph.IsComponent part) : part ≠ [] := by
  obtain ⟨root, isClass⟩ := component.exists_root
  exact List.ne_nil_of_mem ((isClass root).mpr (.refl graph root))

theorem sameComponent (component : graph.IsComponent part) (left : first ∈ part)
    (right : second ∈ part) : graph.SameComponent first second := by
  obtain ⟨root, isClass⟩ := component.exists_root
  exact ((isClass first).mp left).symm.trans ((isClass second).mp right)

theorem mem_of_sameComponent (component : graph.IsComponent part) (member : first ∈ part)
    (same : graph.SameComponent first second) : second ∈ part := by
  obtain ⟨root, isClass⟩ := component.exists_root
  exact (isClass second).mpr (((isClass first).mp member).trans same)

end IsComponent

theorem component_of_mem (closed : graph.Closed) (member : part ∈ graph.components) :
    graph.IsComponent part :=
  (isSplit_components closed).component part member

theorem eq_of_mem_components (closed : graph.Closed) (isPart : part ∈ graph.components)
    (isOther : other ∈ graph.components) (inPart : node ∈ part) (inOther : node ∈ other) :
    part = other := by
  by_contra apart
  have symmetric : Std.Symm (@List.Disjoint α) := ⟨fun _ _ => List.disjoint_symm⟩
  exact (isSplit_components closed).disjoint.forall isPart isOther apart inPart inOther

theorem nodup_components (closed : graph.Closed) : graph.components.Nodup := by
  have split := isSplit_components closed
  refine split.disjoint.imp_of_mem fun isPart _ disjoint same => ?_
  obtain ⟨node, member⟩ := List.exists_mem_of_ne_nil _ (split.component _ isPart).ne_nil
  exact disjoint member (same ▸ member)

theorem componentOf_mem (closed : graph.Closed) (inGraph : node ∈ graph.nodes) :
    componentOf graph.components node ∈ graph.components ∧
      node ∈ componentOf graph.components node := by
  obtain ⟨part, isPart, member⟩ :=
    ((isSplit_components closed).covers node inGraph).resolve_left (by simp)
  unfold componentOf
  cases found : graph.components.find? (node ∈ ·) with
  | none => exact absurd member (by simpa using List.find?_eq_none.mp found part isPart)
  | some part' => exact ⟨List.mem_of_find?_eq_some found, by simpa using List.find?_some found⟩

/-! ## Edges between components -/

/-- An edge of the condensation comes from an edge between nodes of its two ends. -/
theorem exists_edge (edge : (part, other) ∈ graph.condensation.edges) :
    ∃ first second, (first, second) ∈ graph.edges ∧ part = componentOf graph.components first ∧
      other = componentOf graph.components second := by
  simp only [condensation, List.mem_eraseDups, List.mem_filter, List.mem_map, Prod.exists,
    Prod.mk.injEq] at edge
  obtain ⟨⟨first, second, edge, partEq, otherEq⟩, -⟩ := edge
  exact ⟨first, second, edge, partEq.symm, otherEq.symm⟩

theorem closed_condensation (closed : graph.Closed) : graph.condensation.Closed := by
  rintro ⟨part, other⟩ joined
  obtain ⟨first, second, edge, rfl, rfl⟩ := exists_edge joined
  obtain ⟨firstInGraph, secondInGraph⟩ := closed _ edge
  exact ⟨(componentOf_mem closed firstInGraph).1, (componentOf_mem closed secondInGraph).1⟩

theorem leads_of_condensation (closed : graph.Closed) (leads : graph.condensation.Leads part other)
    (isPart : part ∈ graph.components) (inPart : first ∈ part) (inOther : second ∈ other) :
    graph.Leads first second := by
  induction leads generalizing first with
  | refl => exact ((component_of_mem closed isPart).sameComponent inPart inOther).1
  | @step part middle other _ joined _ ih =>
      obtain ⟨source, target, edge, rfl, rfl⟩ := exists_edge (mem_successors.mp joined)
      obtain ⟨sourceInGraph, targetInGraph⟩ := closed _ edge
      obtain ⟨isMiddle, inMiddle⟩ := componentOf_mem closed targetInGraph
      have sourceInPart := (componentOf_mem closed sourceInGraph).2
      have before := ((component_of_mem closed isPart).sameComponent inPart sourceInPart).1
      exact before.trans ((Leads.of_edge edge).trans (ih isMiddle inMiddle inOther))

/-- Components that lead to each other are the same. -/
theorem condensation_acyclic (closed : graph.Closed) (isPart : part ∈ graph.components)
    (isOther : other ∈ graph.components) (same : graph.condensation.SameComponent part other) :
    part = other := by
  obtain ⟨first, inPart⟩ := List.exists_mem_of_ne_nil _ (component_of_mem closed isPart).ne_nil
  obtain ⟨second, inOther⟩ := List.exists_mem_of_ne_nil _ (component_of_mem closed isOther).ne_nil
  have joined : graph.SameComponent first second :=
    ⟨leads_of_condensation closed same.1 isPart inPart inOther,
      leads_of_condensation closed same.2 isOther inOther inPart⟩
  have member := (component_of_mem closed isPart).mem_of_sameComponent inPart joined
  exact eq_of_mem_components closed isPart isOther member inOther

/-- The condensation joins the components that an edge of the graph joins. -/
theorem leads_componentOf (edge : (first, second) ∈ graph.edges) :
    graph.condensation.Leads (componentOf graph.components first)
      (componentOf graph.components second) := by
  by_cases same : componentOf graph.components first = componentOf graph.components second
  · exact same ▸ .refl id
  · refine Leads.of_edge ?_
    simp only [condensation, List.mem_eraseDups, List.mem_filter, List.mem_map]
    exact ⟨⟨(first, second), edge, rfl⟩, by simpa using same⟩

/-! ## The order of the components -/

/-- The components in an order that every edge respects. -/
abbrev componentOrder (graph : Digraph α) : List (List α) :=
  graph.condensation.topologicalOrder

theorem componentOrder_perm (closed : graph.Closed) :
    graph.componentOrder.Perm graph.components := by
  have lists := lists_finishOrder (closed_condensation closed).successors
  refine (List.perm_ext_iff_of_nodup lists.nodup (nodup_components closed)).mpr fun part => ?_
  exact mem_finishOrder (closed_condensation closed).successors

theorem pairwise_componentOrder (closed : graph.Closed) :
    graph.componentOrder.Pairwise List.Disjoint := by
  exact (componentOrder_perm closed).symm.pairwise (isSplit_components closed).disjoint
    List.disjoint_symm

theorem noLater_of_edge (closed : graph.Closed) (edge : (first, second) ∈ graph.edges) :
    NoLater graph.componentOrder (componentOf graph.components first)
      (componentOf graph.components second) := by
  obtain ⟨firstInGraph, secondInGraph⟩ := closed _ edge
  have isFirst := (componentOf_mem closed firstInGraph).1
  have isSecond := (componentOf_mem closed secondInGraph).1
  have isPart := fun part : List α => (componentOrder_perm closed).mem_iff (a := part)
  have lists := lists_finishOrder (closed_condensation closed).successors
  obtain ⟨leader, joined, noLater⟩ :=
    lists.ordered _ ((isPart _).mpr isFirst) _ ((isPart _).mpr isSecond)
      (leads_componentOf edge)
  have leaderIn : leader ∈ graph.components :=
    (closed_condensation closed).mem_of_leads joined.1 isFirst
  obtain rfl := condensation_acyclic closed isFirst leaderIn joined
  exact noLater

/-- The components in their order hold every node once, and an edge never leads back to an earlier
component. -/
theorem componentOrder_respects (closed : graph.Closed) {before after : List (List α)}
    (split : graph.componentOrder = before ++ part :: after)
    (edge : (first, second) ∈ graph.edges) (member : second ∈ part) :
    first ∈ before.flatten ∨ first ∈ part := by
  have perm := componentOrder_perm closed
  obtain ⟨firstInGraph, secondInGraph⟩ := closed _ edge
  have isPart : part ∈ graph.components := perm.mem_iff.mp (by simp [split])
  obtain ⟨isSecond, inSecond⟩ := componentOf_mem closed secondInGraph
  obtain rfl := eq_of_mem_components closed isSecond isPart inSecond member
  have noLater := noLater_of_edge closed edge
  have nodup := perm.nodup_iff.mpr (nodup_components closed)
  rw [split] at noLater nodup
  have inFirst := (componentOf_mem closed firstInGraph).2
  rcases noLater.of_nodup nodup with earlier | same
  · exact .inl (List.mem_flatten.mpr ⟨_, earlier, inFirst⟩)
  · exact .inr (same ▸ inFirst)

end Digraph

end Datalog
