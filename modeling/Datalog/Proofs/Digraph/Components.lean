import Datalog.Proofs.Digraph.Search

/-!
# Strongly connected components

The components of a graph are the classes of nodes that lead to each other.  A first search, against
the edges, orders the nodes; a second one, along the edges, then finds no more than one class at a
time: whatever else a node leads to was listed earlier, with all its class.
-/

namespace Datalog

namespace Digraph

variable {α : Type} [DecidableEq α] {graph : Digraph α} {first second third node : α}

/-- Edges join nodes of the graph. -/
def Closed (graph : Digraph α) : Prop :=
  ∀ edge ∈ graph.edges, edge.1 ∈ graph.nodes ∧ edge.2 ∈ graph.nodes

/-- A node leads to another one along edges. -/
abbrev Leads (graph : Digraph α) (first second : α) : Prop :=
  Reaches graph.successors (fun _ => False) first second

/-- Two nodes lead to each other. -/
def SameComponent (graph : Digraph α) (first second : α) : Prop :=
  graph.Leads first second ∧ graph.Leads second first

theorem mem_successors : second ∈ graph.successors first ↔ (first, second) ∈ graph.edges := by
  simp [successors, Prod.exists]

theorem mem_predecessors : first ∈ graph.predecessors second ↔ (first, second) ∈ graph.edges := by
  simp [predecessors, Prod.exists]

theorem Leads.of_edge (edge : (first, second) ∈ graph.edges) : graph.Leads first second :=
  .step id (mem_successors.mpr edge) (.refl id)

/-- Going against the edges leads back. -/
theorem leads_of_predecessors
    (reaches : Reaches graph.predecessors (fun _ => False) first second) :
    graph.Leads second first := by
  induction reaches with
  | refl => exact .refl id
  | step _ edge _ ih => exact ih.trans (Leads.of_edge (mem_predecessors.mp edge))

theorem predecessors_of_leads (leads : graph.Leads first second) :
    Reaches graph.predecessors (fun _ => False) second first := by
  induction leads with
  | refl => exact .refl id
  | step _ edge _ ih =>
      have back := mem_predecessors.mpr (mem_successors.mp edge)
      exact ih.trans (.step id back (.refl id))

namespace SameComponent

theorem refl (graph : Digraph α) (node : α) : graph.SameComponent node node :=
  ⟨.refl id, .refl id⟩

theorem symm (same : graph.SameComponent first second) : graph.SameComponent second first :=
  ⟨same.2, same.1⟩

theorem trans (left : graph.SameComponent first second)
    (right : graph.SameComponent second third) : graph.SameComponent first third :=
  ⟨left.1.trans right.1, right.2.trans left.2⟩

end SameComponent

theorem Closed.successors (closed : graph.Closed) :
    ∀ node ∈ graph.nodes, ∀ other ∈ graph.successors node, other ∈ graph.nodes :=
  fun _ _ _ edge => (closed _ (mem_successors.mp edge)).2

theorem Closed.predecessors (closed : graph.Closed) :
    ∀ node ∈ graph.nodes, ∀ other ∈ graph.predecessors node, other ∈ graph.nodes :=
  fun _ _ _ edge => (closed _ (mem_predecessors.mp edge)).1

theorem Closed.mem_of_leads (closed : graph.Closed) (leads : graph.Leads first second)
    (member : first ∈ graph.nodes) : second ∈ graph.nodes := by
  induction leads with
  | refl => exact member
  | step _ edge _ ih => exact ih (closed.successors _ member _ edge)

/-! ## One class at a time -/

omit [DecidableEq α] in
/-- In a list without repetitions what comes no later than a node stands before its place. -/
theorem NoLater.of_nodup {front back : List α} (nodup : (front ++ second :: back).Nodup)
    (noLater : NoLater (front ++ second :: back) first second) : first ∈ front ∨ first = second := by
  obtain ⟨before, after, split, place⟩ := noLater
  have notInFront : second ∉ front := fun member =>
    (List.nodup_append.mp nodup).2.2 second member second List.mem_cons_self rfl
  have notBehind : second ∉ back :=
    (List.nodup_cons.mp (List.nodup_append.mp nodup).2.1).1
  obtain ⟨rfl, -, -⟩ := (List.append_cons_inj_of_notMem notInFront notBehind).mp split
  exact place

section Search

variable {before rest discovered part : List α} {root : α}

/-- A search from a root finds its class, when the classes of the nodes that were listed before it
have been discovered. -/
theorem mem_iff_sameComponent (closed : graph.Closed)
    (order : graph.finishOrder graph.predecessors = before ++ root :: rest)
    (classes : ∀ node, node ∈ discovered ↔ ∃ earlier ∈ before, graph.SameComponent earlier node)
    (free : root ∉ discovered)
    (lists : Lists graph.successors (· ∈ discovered) (· = root) part) :
    node ∈ part ↔ graph.SameComponent root node := by
  have finished := lists_finishOrder closed.predecessors
  have rootInGraph : root ∈ graph.nodes :=
    (mem_finishOrder closed.predecessors).mp (by simp [order])
  have listed : ∀ other ∈ graph.nodes, other ∈ before ++ root :: rest := fun other member =>
    order ▸ (mem_finishOrder closed.predecessors).mpr member
  rw [order] at finished
  constructor
  · intro member
    obtain ⟨root, rfl, reaches⟩ := (lists.mem_iff node).mp member
    have leads : graph.Leads root node := reaches.mono fun _ => False.elim
    have nodeInGraph := closed.mem_of_leads leads rootInGraph
    obtain ⟨leader, joined, noLater⟩ :=
      finished.ordered node (listed node nodeInGraph) _ (listed _ rootInGraph)
        (predecessors_of_leads leads)
    have same : graph.SameComponent leader node :=
      ⟨leads_of_predecessors joined.1, leads_of_predecessors joined.2⟩
    rcases noLater.of_nodup finished.nodup with earlier | rfl
    · exact absurd ((classes node).mpr ⟨leader, earlier, same⟩) (lists.free member)
    · exact same
  · intro same
    rcases same.1.avoids_or (· ∈ discovered) with avoids | ⟨between, known, first, last⟩
    · refine (lists.mem_iff node).mpr ⟨root, rfl, avoids.mono fun _ stopped => ?_⟩
      exact .inr stopped
    · obtain ⟨earlier, member, joined⟩ := (classes between).mp known
      have back : graph.SameComponent between root := ⟨last.trans same.2, first⟩
      exact absurd ((classes root).mpr ⟨earlier, member, joined.trans back⟩) free

/-- After a search from a root the classes of the root and of the nodes listed before have been
discovered. -/
theorem mem_or_mem_iff (closed : graph.Closed)
    (order : graph.finishOrder graph.predecessors = before ++ root :: rest)
    (classes : ∀ node, node ∈ discovered ↔ ∃ earlier ∈ before, graph.SameComponent earlier node)
    (lists : Lists graph.successors (· ∈ discovered) (· = root) part) :
    node ∈ discovered ∨ node ∈ part ↔
      ∃ earlier ∈ before ++ [root], graph.SameComponent earlier node := by
  by_cases known : root ∈ discovered
  · have nothing : node ∉ part := by
      intro member
      obtain ⟨_, rfl, reaches⟩ := (lists.mem_iff node).mp member
      exact reaches.free_left known
    obtain ⟨earlier, member, joined⟩ := (classes root).mp known
    have absorbed : graph.SameComponent root node → node ∈ discovered := fun same =>
      (classes node).mpr ⟨earlier, member, joined.trans same⟩
    simp only [List.mem_append, List.mem_singleton, or_and_right, exists_or, exists_eq_left]
    rw [← classes]
    tauto
  · simp only [List.mem_append, List.mem_singleton, or_and_right, exists_or, exists_eq_left]
    rw [← classes, mem_iff_sameComponent closed order classes known lists]

end Search

/-- A part is the class of one of its nodes. -/
structure IsComponent (graph : Digraph α) (part : List α) : Prop where
  nodup : part.Nodup
  inside : ∀ node ∈ part, node ∈ graph.nodes
  exists_root : ∃ root, ∀ node, node ∈ part ↔ graph.SameComponent root node

/-- Parts of a graph that are classes, apart from what has been discovered and from each other. -/
structure IsSplit (graph : Digraph α) (discovered rest : List α) (parts : List (List α)) : Prop where
  component : ∀ part ∈ parts, graph.IsComponent part
  fresh : ∀ part ∈ parts, ∀ node ∈ part, node ∉ discovered
  disjoint : parts.Pairwise List.Disjoint
  covers : ∀ node ∈ rest, node ∈ discovered ∨ ∃ part ∈ parts, node ∈ part

theorem isSplit_partsFrom (closed : graph.Closed) {before rest discovered : List α}
    (order : graph.finishOrder graph.predecessors = before ++ rest)
    (classes : ∀ node, node ∈ discovered ↔ ∃ earlier ∈ before, graph.SameComponent earlier node) :
    IsSplit graph discovered rest (graph.partsFrom discovered rest) := by
  induction rest generalizing before discovered with
  | nil => exact ⟨by simp [partsFrom], by simp [partsFrom], .nil, by simp⟩
  | cons root rest ih =>
      have rootInGraph : root ∈ graph.nodes :=
        (mem_finishOrder closed.predecessors).mp (by simp [order])
      obtain ⟨part, finishedEq, lists, discoveredIff⟩ :=
        searched_visit closed.successors { discovered } root rootInGraph (List.length_filter_le _ _)
      unfold partsFrom
      generalize visit graph.successors graph.nodes.length { discovered } root = search
        at finishedEq discoveredIff
      rw [List.append_nil] at finishedEq
      have classes' : ∀ node, node ∈ search.discovered ↔
          ∃ earlier ∈ before ++ [root], graph.SameComponent earlier node := fun node =>
        (discoveredIff node).trans (mem_or_mem_iff closed order classes lists)
      have rootKnown : root ∈ search.discovered :=
        (classes' root).mpr ⟨root, by simp, .refl graph root⟩
      have order' : graph.finishOrder graph.predecessors = (before ++ [root]) ++ rest := by
        simpa using order
      simp only [finishedEq, List.isEmpty_iff]
      split_ifs with empty
      · -- The root is in the class of an earlier node, so that its search has found nothing.
        have same : ∀ node, node ∈ search.discovered ↔ node ∈ discovered := by
          simpa [empty] using discoveredIff
        have split := ih order' fun node => (same node).symm.trans (classes' node)
        refine ⟨split.component, split.fresh, split.disjoint, ?_⟩
        exact List.forall_mem_cons.mpr ⟨.inl ((same root).mp rootKnown), split.covers⟩
      · -- What the search has finished is the class of the root.
        have split := ih order' classes'
        obtain ⟨other, member⟩ := List.exists_mem_of_ne_nil part empty
        have free : root ∉ discovered := by
          obtain ⟨_, rfl, reaches⟩ := (lists.mem_iff other).mp member
          exact reaches.free_left
        have isClass : ∀ node, node ∈ part ↔ graph.SameComponent root node := fun _ =>
          mem_iff_sameComponent closed order classes free lists
        refine ⟨List.forall_mem_cons.mpr ⟨⟨lists.nodup, ?_, root, isClass⟩, split.component⟩,
          List.forall_mem_cons.mpr ⟨fun _ => lists.free, ?_⟩, ?_, ?_⟩
        · intro node inPart
          exact closed.mem_of_leads ((isClass node).mp inPart).1 rootInGraph
        · intro later isPart node inLater known
          exact split.fresh later isPart node inLater ((discoveredIff node).mpr (.inl known))
        · refine List.pairwise_cons.mpr ⟨fun later isPart node inPart inLater => ?_, split.disjoint⟩
          exact split.fresh later isPart node inLater ((discoveredIff node).mpr (.inr inPart))
        · intro node inRest
          have covered : node ∈ search.discovered ∨
              ∃ later ∈ graph.partsFrom search.discovered rest, node ∈ later := by
            rcases List.mem_cons.mp inRest with rfl | inRest
            · exact .inl rootKnown
            · exact split.covers node inRest
          rcases covered with known | ⟨later, isPart, inLater⟩
          · rcases (discoveredIff node).mp known with known | inPart
            · exact .inl known
            · exact .inr ⟨part, List.mem_cons_self, inPart⟩
          · exact .inr ⟨later, List.mem_cons_of_mem _ isPart, inLater⟩

/-- The components of a graph are the classes of its nodes. -/
theorem isSplit_components (closed : graph.Closed) :
    IsSplit graph [] graph.nodes graph.components := by
  have split : IsSplit graph [] (graph.finishOrder graph.predecessors) graph.components :=
    isSplit_partsFrom closed (List.nil_append _).symm (by simp)
  refine ⟨split.component, split.fresh, split.disjoint, fun node member => ?_⟩
  exact split.covers node ((mem_finishOrder closed.predecessors).mpr member)

end Digraph

end Datalog
