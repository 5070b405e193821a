/-!
# Directed graphs

Depth-first search, strongly connected components and a topological order of the condensation.
Edges are kept in the order in which they were added, and the searches follow that order, so the
results are determined completely.
-/

namespace Datalog

/-- A directed graph: nodes and edges, each in the order in which they were added. -/
structure Digraph (α : Type) where
  nodes : List α
  edges : List (α × α)

namespace Digraph

variable {α : Type} [DecidableEq α]

def successors (graph : Digraph α) (node : α) : List α :=
  (graph.edges.filter (·.1 = node)).map (·.2)

def predecessors (graph : Digraph α) (node : α) : List α :=
  (graph.edges.filter (·.2 = node)).map (·.1)

/-- The progress of a search: the nodes discovered so far, and those that are finished, the latest
first. -/
structure Search (α : Type) where
  discovered : List α := []
  finished : List α := []

/-- Visit a node and everything that can be reached from it through undiscovered nodes; a node is
finished after all its neighbours.  The depth never exceeds the number of nodes. -/
def visit (neighbours : α → List α) : (depth : Nat) → Search α → α → Search α
  | 0, search, _ => search
  | depth + 1, search, node =>
      if node ∈ search.discovered then
        search
      else
        let search :=
          (neighbours node).foldl (visit neighbours depth)
            { search with discovered := node :: search.discovered }
        { search with finished := node :: search.finished }

/-- Visit every node of a graph in order; the result lists the nodes, the latest finished first. -/
def finishOrder (graph : Digraph α) (neighbours : α → List α) : List α :=
  (graph.nodes.foldl (visit neighbours graph.nodes.length) {}).finished

/-- Split off, for each root in turn, what can be reached from it through nodes that belong to no
earlier part. -/
def partsFrom (graph : Digraph α) (discovered : List α) : (roots : List α) → List (List α)
  | [] => []
  | root :: roots =>
      let search := visit graph.successors graph.nodes.length { discovered } root
      if search.finished.isEmpty then
        partsFrom graph discovered roots
      else
        search.finished :: partsFrom graph search.discovered roots

/-- The strongly connected components of a graph. -/
def components (graph : Digraph α) : List (List α) :=
  graph.partsFrom [] (graph.finishOrder graph.predecessors)

def componentOf (components : List (List α)) (node : α) : List α :=
  (components.find? (node ∈ ·)).getD []

/-- The graph of the strongly connected components: two of them are joined once, by the first edge
that leads from the one to the other. -/
def condensation (graph : Digraph α) : Digraph (List α) :=
  let components := graph.components
  let edges := graph.edges.map fun edge =>
    (componentOf components edge.1, componentOf components edge.2)
  { nodes := components
    edges := (edges.filter fun edge => edge.1 ≠ edge.2).eraseDups }

/-- The nodes of an acyclic graph in an order that every edge respects. -/
def topologicalOrder (graph : Digraph α) : List α :=
  graph.finishOrder graph.successors

end Digraph

end Datalog
