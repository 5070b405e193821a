import Datalog.Digraph
import Mathlib.Data.List.Basic

/-!
# Depth-first search

A search finishes what can be reached without passing through nodes that were discovered before.  The
nodes are finished in such an order that, of the nodes that reach each other, one is listed no later
than everything they lead to.
-/

namespace Datalog

namespace Digraph

variable {α : Type}

/-- A node leads to another one through nodes that are not blocked. -/
inductive Reaches (next : α → List α) (blocked : α → Prop) : α → α → Prop where
  | refl {node : α} (free : ¬ blocked node) : Reaches next blocked node node
  | step {first second last : α} (free : ¬ blocked first) (edge : second ∈ next first)
      (rest : Reaches next blocked second last) : Reaches next blocked first last

/-- Two nodes lead to each other. -/
def Joined (next : α → List α) (blocked : α → Prop) (first second : α) : Prop :=
  Reaches next blocked first second ∧ Reaches next blocked second first

variable {next : α → List α} {blocked : α → Prop} {first second third : α}

namespace Reaches

theorem free_left (reaches : Reaches next blocked first second) : ¬ blocked first := by
  cases reaches with
  | refl free => exact free
  | step free => exact free

theorem free_right (reaches : Reaches next blocked first second) : ¬ blocked second := by
  induction reaches with
  | refl free => exact free
  | step _ _ _ ih => exact ih

theorem trans (left : Reaches next blocked first second) (right : Reaches next blocked second third) :
    Reaches next blocked first third := by
  induction left with
  | refl => exact right
  | step free edge _ ih => exact .step free edge (ih right)

theorem mono {blocked' : α → Prop} (fewer : ∀ node, blocked' node → blocked node)
    (reaches : Reaches next blocked first second) : Reaches next blocked' first second := by
  induction reaches with
  | refl free => exact .refl fun stopped => free (fewer _ stopped)
  | step free edge _ ih => exact .step (fun stopped => free (fewer _ stopped)) edge ih

/-- A way either avoids some more nodes or passes through one of them. -/
theorem avoids_or (reaches : Reaches next blocked first second) (more : α → Prop) :
    Reaches next (fun node => blocked node ∨ more node) first second ∨
      ∃ node, more node ∧ Reaches next blocked first node ∧ Reaches next blocked node second := by
  induction reaches with
  | @refl node free =>
      by_cases here : more node
      · exact .inr ⟨node, here, .refl free, .refl free⟩
      · exact .inl (.refl fun stopped => stopped.elim free here)
  | @step first middle last free edge rest ih =>
      by_cases here : more first
      · exact .inr ⟨first, here, .refl free, .step free edge rest⟩
      · rcases ih with avoids | ⟨node, isMore, before, after⟩
        · exact .inl (.step (fun stopped => stopped.elim free here) edge avoids)
        · exact .inr ⟨node, isMore, .step free edge before, after⟩

/-- A way to another node than a given one avoids that node, or does so after leaving it once more. -/
theorem avoids_or_leaves (reaches : Reaches next blocked first second) {node : α}
    (apart : second ≠ node) :
    Reaches next (fun other => blocked other ∨ other = node) first second ∨
      ∃ start ∈ next node, Reaches next (fun other => blocked other ∨ other = node) start second := by
  induction reaches with
  | refl free => exact .inl (.refl fun stopped => stopped.elim free apart)
  | @step first middle last free edge rest ih =>
      rcases ih apart with avoids | leaves
      · by_cases here : first = node
        · exact .inr ⟨middle, here ▸ edge, avoids⟩
        · exact .inl (.step (fun stopped => stopped.elim free here) edge avoids)
      · exact .inr leaves

end Reaches

/-! ## Orders of nodes -/

def NoLater (nodes : List α) (first second : α) : Prop :=
  ∃ front back, nodes = front ++ second :: back ∧ (first ∈ front ∨ first = second)

theorem NoLater.append {nodes : List α} (noLater : NoLater nodes first second)
    (front back : List α) : NoLater (front ++ nodes ++ back) first second := by
  obtain ⟨before, after, rfl, place⟩ := noLater
  refine ⟨front ++ before, after ++ back, by simp, ?_⟩
  exact place.imp (List.mem_append_right front) id

theorem noLater_append {front back : List α} (inFront : first ∈ front) (inBack : second ∈ back) :
    NoLater (front ++ back) first second := by
  obtain ⟨before, after, rfl⟩ := List.append_of_mem inBack
  exact ⟨front ++ before, after, by simp, .inl (List.mem_append_left _ inFront)⟩

/-- A list of all nodes that some roots lead to.  Of the nodes that lead to each other, one is listed
no later than everything they lead to. -/
structure Lists (next : α → List α) (blocked root : α → Prop) (nodes : List α) : Prop where
  mem_iff : ∀ node, node ∈ nodes ↔ ∃ start, root start ∧ Reaches next blocked start node
  nodup : nodes.Nodup
  ordered : ∀ first ∈ nodes, ∀ second ∈ nodes, Reaches next blocked first second →
    ∃ leader, Joined next blocked first leader ∧ NoLater nodes leader second

namespace Lists

variable {root : α → Prop} {nodes : List α}

theorem free (lists : Lists next blocked root nodes) {node : α} (member : node ∈ nodes) :
    ¬ blocked node := by
  obtain ⟨start, -, reaches⟩ := (lists.mem_iff node).mp member
  exact reaches.free_right

theorem closed (lists : Lists next blocked root nodes) (member : first ∈ nodes)
    (reaches : Reaches next blocked first second) : second ∈ nodes := by
  obtain ⟨start, isRoot, before⟩ := (lists.mem_iff first).mp member
  exact (lists.mem_iff second).mpr ⟨start, isRoot, before.trans reaches⟩

theorem of_blocked (stopped : ∀ start, root start → blocked start) : Lists next blocked root [] where
  mem_iff node := by
    constructor
    · simp
    · rintro ⟨start, isRoot, reaches⟩
      exact absurd (stopped start isRoot) reaches.free_left
  nodup := List.nodup_nil
  ordered := by simp

/-- What the neighbours of a node lead to comes after the node itself. -/
theorem cons {node : α} (free : ¬ blocked node)
    (lists : Lists next (fun other => blocked other ∨ other = node) (· ∈ next node) nodes) :
    Lists next blocked (· = node) (node :: nodes) where
  mem_iff other := by
    rw [List.mem_cons, lists.mem_iff]
    constructor
    · rintro (rfl | ⟨start, edge, reaches⟩)
      · exact ⟨other, rfl, .refl free⟩
      · exact ⟨node, rfl, .step free edge (reaches.mono fun _ stopped => .inl stopped)⟩
    · rintro ⟨start, isNode, reaches⟩
      obtain rfl : node = start := isNode.symm
      by_cases here : other = node
      · exact .inl here
      · rcases reaches.avoids_or_leaves here with avoids | leaves
        · exact absurd (.inr rfl) avoids.free_left
        · exact .inr leaves
  nodup := List.nodup_cons.mpr ⟨fun member => lists.free member (.inr rfl), lists.nodup⟩
  ordered := by
    intro first firstMember second secondMember reaches
    have fromNode : ∀ other ∈ node :: nodes, Reaches next blocked node other := by
      intro other member
      rcases List.mem_cons.mp member with rfl | member
      · exact .refl free
      · obtain ⟨start, edge, after⟩ := (lists.mem_iff other).mp member
        exact .step free edge (after.mono fun _ stopped => .inl stopped)
    -- A node that leads back belongs to the class of the first node, and nothing comes before this one.
    have nodeFirst : Reaches next blocked first node →
        ∃ leader, Joined next blocked first leader ∧ NoLater (node :: nodes) leader second := by
      intro back
      refine ⟨node, ⟨back, fromNode first firstMember⟩, ?_⟩
      rcases List.mem_cons.mp secondMember with rfl | member
      · exact ⟨[], nodes, rfl, .inr rfl⟩
      · exact noLater_append (List.mem_singleton_self node) member
    by_cases secondHere : second = node
    · exact nodeFirst (secondHere ▸ reaches)
    · rcases List.mem_cons.mp firstMember with rfl | firstInNodes
      · exact nodeFirst (.refl free)
      · rcases reaches.avoids_or (· = node) with avoids | ⟨_, rfl, back, -⟩
        · have secondInNodes := (List.mem_cons.mp secondMember).resolve_left secondHere
          obtain ⟨leader, joined, noLater⟩ :=
            lists.ordered first firstInNodes second secondInNodes avoids
          refine ⟨leader, ⟨joined.1.mono fun _ stopped => .inl stopped,
            joined.2.mono fun _ stopped => .inl stopped⟩, ?_⟩
          simpa using noLater.append [node] []
        · exact nodeFirst back

theorem append {root' : α → Prop} {added : List α} (lists : Lists next blocked root nodes)
    (more : Lists next (fun node => blocked node ∨ node ∈ nodes) root' added) :
    Lists next blocked (fun node => root node ∨ root' node) (added ++ nodes) where
  mem_iff node := by
    rw [List.mem_append]
    constructor
    · rintro (member | member)
      · obtain ⟨start, isRoot, reaches⟩ := (more.mem_iff node).mp member
        exact ⟨start, .inr isRoot, reaches.mono fun _ stopped => .inl stopped⟩
      · obtain ⟨start, isRoot, reaches⟩ := (lists.mem_iff node).mp member
        exact ⟨start, .inl isRoot, reaches⟩
    · rintro ⟨start, isRoot | isRoot, reaches⟩
      · exact .inr ((lists.mem_iff node).mpr ⟨start, isRoot, reaches⟩)
      · rcases reaches.avoids_or (· ∈ nodes) with avoids | ⟨between, member, -, after⟩
        · exact .inl ((more.mem_iff node).mpr ⟨start, isRoot, avoids⟩)
        · exact .inr (lists.closed member after)
  nodup := by
    rw [List.nodup_append]
    refine ⟨more.nodup, lists.nodup, ?_⟩
    rintro node inAdded _ inNodes rfl
    exact more.free inAdded (.inr inNodes)
  ordered := by
    intro first firstMember second secondMember reaches
    rcases List.mem_append.mp firstMember with firstAdded | firstMember
    · rcases List.mem_append.mp secondMember with secondAdded | secondMember
      · rcases reaches.avoids_or (· ∈ nodes) with avoids | ⟨between, member, -, after⟩
        · obtain ⟨leader, joined, noLater⟩ :=
            more.ordered first firstAdded second secondAdded avoids
          refine ⟨leader, ⟨joined.1.mono fun _ stopped => .inl stopped,
            joined.2.mono fun _ stopped => .inl stopped⟩, ?_⟩
          exact noLater.append [] nodes
        · exact absurd (.inr (lists.closed member after)) (more.free secondAdded)
      · have free : ¬ blocked first := reaches.free_left
        exact ⟨first, ⟨.refl free, .refl free⟩, noLater_append firstAdded secondMember⟩
    · have secondInNodes := lists.closed firstMember reaches
      obtain ⟨leader, joined, noLater⟩ :=
        lists.ordered first firstMember second secondInNodes reaches
      refine ⟨leader, joined, ?_⟩
      simpa using noLater.append added []

theorem congr_root {root' : α → Prop} (lists : Lists next blocked root nodes)
    (same : ∀ node, root node ↔ root' node) : Lists next blocked root' nodes := by
  have : root = root' := funext fun node => propext (same node)
  exact this ▸ lists

theorem congr_blocked {blocked' : α → Prop} (lists : Lists next blocked root nodes)
    (same : ∀ node, blocked node ↔ blocked' node) : Lists next blocked' root nodes := by
  have : blocked = blocked' := funext fun node => propext (same node)
  exact this ▸ lists

end Lists

/-! ## Searching -/

/-- A search has discovered and finished some more nodes. -/
def Searched (next : α → List α) (root : α → Prop) (before after : Search α) : Prop :=
  ∃ added, after.finished = added ++ before.finished ∧
    Lists next (· ∈ before.discovered) root added ∧
      ∀ node, node ∈ after.discovered ↔ node ∈ before.discovered ∨ node ∈ added

theorem searched_discovered {search : Search α} {node : α}
    (discovered : node ∈ search.discovered) : Searched next (· = node) search search := by
  refine ⟨[], rfl, .of_blocked ?_, by simp⟩
  rintro start rfl
  exact discovered

variable [DecidableEq α] {nodes : List α}

/-- The nodes that have not been discovered yet. -/
def undiscovered (nodes discovered : List α) : List α :=
  nodes.filter (· ∉ discovered)

theorem mem_undiscovered {discovered : List α} {node : α} :
    node ∈ undiscovered nodes discovered ↔ node ∈ nodes ∧ node ∉ discovered := by
  simp [undiscovered]

theorem undiscovered_length_le {discovered later : List α}
    (grown : ∀ node ∈ discovered, node ∈ later) :
    (undiscovered nodes later).length ≤ (undiscovered nodes discovered).length := by
  refine (List.monotone_filter_right nodes fun node undiscovered => ?_).length_le
  simp only [decide_eq_true_eq] at undiscovered ⊢
  exact fun member => undiscovered (grown node member)

theorem undiscovered_length_lt {discovered : List α} {node : α} (member : node ∈ nodes)
    (free : node ∉ discovered) :
    (undiscovered nodes (node :: discovered)).length < (undiscovered nodes discovered).length := by
  have split : undiscovered nodes (node :: discovered) =
      (undiscovered nodes discovered).filter (· ≠ node) := by
    simp [undiscovered, List.filter_filter]
  rw [split]
  refine List.length_filter_lt_length_iff_exists.mpr ⟨node, ?_, by simp⟩
  exact mem_undiscovered.mpr ⟨member, free⟩

/-- Visits one after another finish what the nodes lead to. -/
theorem searched_foldl {depth : Nat}
    (visits : ∀ (search : Search α) (node : α), node ∈ nodes →
      (undiscovered nodes search.discovered).length ≤ depth →
        Searched next (· = node) search (visit next depth search node))
    {roots : List α} (inside : ∀ root ∈ roots, root ∈ nodes) (search : Search α)
    (enough : (undiscovered nodes search.discovered).length ≤ depth) :
    Searched next (· ∈ roots) search (roots.foldl (visit next depth) search) := by
  induction roots generalizing search with
  | nil => exact ⟨[], rfl, .of_blocked (by simp), by simp⟩
  | cons root roots ih =>
      obtain ⟨first, finishedEq, lists, discoveredIff⟩ :=
        visits search root (inside root List.mem_cons_self) enough
      rw [List.foldl_cons]
      generalize visit next depth search root = middle at finishedEq discoveredIff
      have grown : ∀ node ∈ search.discovered, node ∈ middle.discovered :=
        fun node member => (discoveredIff node).mpr (.inl member)
      obtain ⟨added, lastEq, more, lastIff⟩ :=
        ih (fun other member => inside other (List.mem_cons_of_mem _ member)) middle
          (Nat.le_trans (undiscovered_length_le grown) enough)
      refine ⟨added ++ first, by rw [lastEq, finishedEq, List.append_assoc], ?_, fun node => ?_⟩
      · refine (lists.append (more.congr_blocked discoveredIff)).congr_root fun node => ?_
        rw [List.mem_cons]
      · rw [lastIff, discoveredIff, List.mem_append]
        tauto

/-- A visit finishes what the node leads to. -/
theorem searched_visit (isClosed : ∀ node ∈ nodes, ∀ other ∈ next node, other ∈ nodes) {depth : Nat}
    (search : Search α) (node : α) (member : node ∈ nodes)
    (enough : (undiscovered nodes search.discovered).length ≤ depth) :
    Searched next (· = node) search (visit next depth search node) := by
  induction depth generalizing search node with
  | zero =>
      refine searched_discovered ?_
      by_contra free
      have left := List.length_pos_of_mem (mem_undiscovered.mpr ⟨member, free⟩)
      omega
  | succ depth ih =>
      unfold visit
      split
      · next discovered => exact searched_discovered discovered
      · next free =>
          have fewer := undiscovered_length_lt member free
          have enough' : (undiscovered nodes (node :: search.discovered)).length ≤ depth := by omega
          obtain ⟨added, finishedEq, lists, discoveredIff⟩ :=
            searched_foldl ih (isClosed node member)
              { search with discovered := node :: search.discovered } enough'
          refine ⟨node :: added, congrArg (node :: ·) finishedEq, ?_, fun other => ?_⟩
          · refine .cons free (lists.congr_blocked fun other => ?_)
            rw [List.mem_cons, or_comm]
          · refine (discoveredIff other).trans ?_
            rw [List.mem_cons, List.mem_cons]
            tauto

/-! ## Searching a whole graph -/

variable {graph : Digraph α}

/-- The order in which a search finishes the nodes of a graph lists all of them. -/
theorem lists_finishOrder
    (isClosed : ∀ node ∈ graph.nodes, ∀ other ∈ next node, other ∈ graph.nodes) :
    Lists next (fun _ => False) (· ∈ graph.nodes) (graph.finishOrder next) := by
  have enough : (undiscovered graph.nodes ({} : Search α).discovered).length ≤
      graph.nodes.length := List.length_filter_le _ _
  obtain ⟨added, finishedEq, lists, -⟩ :=
    searched_foldl (searched_visit isClosed) (fun _ member => member) {} enough
  have orderEq : graph.finishOrder next = added := by
    rw [finishOrder, finishedEq, List.append_nil]
  rw [orderEq]
  exact lists.congr_blocked (by simp)

theorem mem_finishOrder
    (isClosed : ∀ node ∈ graph.nodes, ∀ other ∈ next node, other ∈ graph.nodes) {node : α} :
    node ∈ graph.finishOrder next ↔ node ∈ graph.nodes := by
  rw [(lists_finishOrder isClosed).mem_iff]
  constructor
  · rintro ⟨start, inGraph, reaches⟩
    induction reaches with
    | refl => exact inGraph
    | step _ edge _ ih => exact ih (isClosed _ inGraph _ edge)
  · intro member
    exact ⟨node, member, .refl id⟩

end Digraph

end Datalog
