import Datalog.Proofs.Semantics.Rendering
import Mathlib.Data.List.Pairwise
import Mathlib.Data.List.Sort

/-!
# The order of rows

Tuples are listed in the order of their values, except that the arguments of constructors with the same
name are compared by their numbers.  Two stores list the same rows in the same order exactly if these
numbers agree wherever they decide.
-/

namespace Datalog

/-! ## Comparing terms -/

instance : Std.TransOrd TermId :=
  inferInstanceAs (Std.TransCmp (compareOn TermId.raw))

instance : Std.LawfulEqOrd TermId where
  eq_of_compare same := congrArg TermId.mk (Std.LawfulEqOrd.eq_of_compare same)

namespace GroundTerm

def truth : GroundTerm → Bool
  | .bool value => value
  | _ => false

def number : GroundTerm → Int
  | .int value => value.toInt
  | _ => 0

def text : GroundTerm → String
  | .str text | .ctor text _ => text
  | _ => ""

def arguments : GroundTerm → List TermId
  | .ctor _ args => args
  | _ => []

/-- Terms are compared part by part. -/
theorem compare_eq_compareLex :
    GroundTerm.compare = compareLex (compareOn rank) (compareLex (compareOn truth)
      (compareLex (compareOn number) (compareLex (compareOn text) (compareOn arguments)))) := by
  funext left right
  cases left <;> cases right <;>
    simp only [GroundTerm.compare, compareLex, compareOn, rank, truth, number, text, arguments,
      Std.ReflCmp.compare_self, Ordering.eq_then, Ordering.then_eq] <;> rfl

instance : Std.TransOrd GroundTerm := by
  change Std.TransCmp GroundTerm.compare
  rw [compare_eq_compareLex]
  infer_instance

instance : Std.LawfulEqOrd GroundTerm where
  eq_of_compare {left right} same := by
    change GroundTerm.compare left right = .eq at same
    cases left <;> cases right <;>
      simp_all [GroundTerm.compare, rank, Ordering.then_eq_eq, Int64.toInt_inj]

end GroundTerm

/-! ## Comparing values -/

namespace Value

/-- The term of a value whose arguments have been given numbers. -/
def ground (number : Value → TermId) : Value → GroundTerm
  | .bool value => .bool value
  | .int value => .int value
  | .str value => .str value
  | .ctor name args => .ctor name (args.map number)

/-- The order of rows in which the arguments of constructors with the same name are compared by
their numbers. -/
def compareRows (number : Value → TermId) (row other : List Value) : Ordering :=
  Ord.compare (row.map (ground number)) (other.map (ground number))

/-- Lists part where one has a value, the other has another, and these are apart in a given way. -/
inductive Part (apart : Value → Value → Prop) : List Value → List Value → Prop where
  | here {value other : Value} (different : apart value other) (values others : List Value) :
      Part apart (value :: values) (other :: others)
  | there {values others : List Value} (value : Value) (further : Part apart values others) :
      Part apart (value :: values) (value :: others)

/-- Constructors with the same name have arguments that part. -/
def ApartInside (value other : Value) : Prop :=
  ∃ name args args', value = .ctor name args ∧ other = .ctor name args' ∧ Part Ne args args'

/-- Rows are told apart by the arguments of constructors with the same name. -/
abbrev DifferInside : List Value → List Value → Prop :=
  Part ApartInside

theorem Part.ne {apart : Value → Value → Prop} {values others : List Value}
    (different : ∀ value other, apart value other → value ≠ other) (part : Part apart values others) :
    values ≠ others := by
  induction part with
  | here first => simp [different _ _ first]
  | there value _ ih => simp [ih]

theorem ApartInside.ne {value other : Value} (apart : ApartInside value other) : value ≠ other := by
  obtain ⟨name, args, args', rfl, rfl, part⟩ := apart
  have different : args ≠ args' := part.ne fun _ _ different => different
  simp [different]

theorem DifferInside.ne {row other : List Value} (inside : DifferInside row other) : row ≠ other :=
  Part.ne (fun _ _ => ApartInside.ne) inside

/-- Where lists do not part in a given way, they are told apart alike by two keys that tell apart alike
all values that are not apart in this way. -/
theorem compare_map_congr {α : Type} [Ord α] [Std.ReflOrd α] {apart : Value → Value → Prop}
    {key key' : Value → α}
    (alike : ∀ value other, value ≠ other → ¬apart value other →
      Ord.compare (key value) (key other) = Ord.compare (key' value) (key' other) ∧
        Ord.compare (key value) (key other) ≠ .eq)
    {values others : List Value} (together : ¬Part apart values others) :
    Ord.compare (values.map key) (others.map key) = Ord.compare (values.map key') (others.map key') ∧
      (Ord.compare (values.map key) (others.map key) = .eq → values = others) := by
  induction values generalizing others with
  | nil =>
      cases others with
      | nil => exact ⟨rfl, fun _ => rfl⟩
      | cons => exact ⟨rfl, fun same => by cases same⟩
  | cons value values ih =>
      cases others with
      | nil => exact ⟨rfl, fun same => by cases same⟩
      | cons other others =>
          simp only [List.map_cons, List.compare_cons_cons]
          by_cases same : value = other
          · subst same
            have rest := ih fun further => together (.there value further)
            simp only [Std.ReflOrd.compare_self, Ordering.eq_then]
            exact ⟨rest.1, fun same => by rw [rest.2 same]⟩
          · -- The lists part here, but not in the given way, so that both keys tell them apart.
            have first := alike value other same fun different => together (.here different _ _)
            rw [← first.1]
            cases order : Ord.compare (key value) (key other) with
            | eq => exact absurd order first.2
            | lt | gt => exact ⟨rfl, fun same => by cases same⟩

variable {number number' : Value → TermId}

/-- Values that are not told apart by the arguments of constructors with the same name compare in the
same way under all numbers. -/
theorem compare_ground_congr {left right : Value} (different : left ≠ right)
    (outside : ¬ApartInside left right) :
    Ord.compare (ground number left) (ground number right) =
        Ord.compare (ground number' left) (ground number' right) ∧
      Ord.compare (ground number left) (ground number right) ≠ .eq := by
  cases left <;> cases right
  case ctor.ctor name args name' args' =>
    change (Ord.compare name name').then (Ord.compare (args.map number) (args'.map number)) =
        (Ord.compare name name').then (Ord.compare (args.map number') (args'.map number')) ∧
      (Ord.compare name name').then (Ord.compare (args.map number) (args'.map number)) ≠ .eq
    by_cases sameName : name = name'
    · subst sameName
      have together : ¬Part Ne args args' := fun part => outside ⟨name, args, args', rfl, rfl, part⟩
      have arguments : Ord.compare (args.map number) (args'.map number) =
            Ord.compare (args.map number') (args'.map number') ∧
          (Ord.compare (args.map number) (args'.map number) = .eq → args = args') :=
        compare_map_congr (fun _ _ different alike => absurd different alike) together
      simp only [Std.ReflOrd.compare_self, Ordering.eq_then]
      exact ⟨arguments.1, fun same => different (congrArg (ctor name) (arguments.2 same))⟩
    · cases order : Ord.compare name name' with
      | eq => exact absurd (Std.LawfulEqOrd.eq_of_compare order) sameName
      | lt | gt => exact ⟨rfl, fun same => by cases same⟩
  case bool.bool left right =>
    exact ⟨rfl, fun same => different (congrArg bool (Std.LawfulEqOrd.eq_of_compare same))⟩
  case int.int left right =>
    have apart : left.toInt ≠ right.toInt :=
      fun same => different (congrArg int (Int64.toInt_inj.mp same))
    exact ⟨rfl, fun same => apart (Std.LawfulEqOrd.eq_of_compare same)⟩
  case str.str left right =>
    exact ⟨rfl, fun same => different (congrArg str (Std.LawfulEqOrd.eq_of_compare same))⟩
  all_goals exact ⟨rfl, fun same => by cases same⟩

/-- Rows that do not differ inside compare in the same way under all numbers. -/
theorem compareRows_congr {row other : List Value} (outside : ¬DifferInside row other) :
    compareRows number row other = compareRows number' row other :=
  (compare_map_congr (fun _ _ => compare_ground_congr) outside).1

/-- A row is listed before another. -/
def Precedes (number : Value → TermId) (row other : List Value) : Prop :=
  compareRows number row other = .lt

instance : Std.OrientedCmp (compareRows number) where
  eq_swap := Std.OrientedOrd.eq_swap

instance : Std.Irrefl (Precedes number) where
  irrefl row precedes := by
    have same : compareRows number row row = .eq := Std.ReflCmp.compare_self
    cases same.symm.trans precedes

instance : Std.Antisymm (Precedes number) where
  antisymm _ _ before after := absurd before (Std.OrientedCmp.not_lt_of_lt after)

end Value

/-! ## The rows of a store -/

namespace TermStore

variable {store store' : TermStore} {rows rows' : List (List Value)} {contents : Set (List Value)}

open Classical in
/-- The number that denotes a value. -/
noncomputable def numberOf (store : TermStore) (value : Value) : TermId :=
  if numbered : ∃ id, store.Denotes id value then numbered.choose else .greatest

theorem Denotes.numberOf_eq {id : TermId} {value : Value} (denotes : store.Denotes id value)
    (distinct : store.Distinct) : store.numberOf value = id := by
  have numbered : ∃ id, store.Denotes id value := ⟨id, denotes⟩
  rw [numberOf, dif_pos numbered]
  exact numbered.choose_spec.injective distinct denotes

theorem DenotesAll.map_numberOf {ids : List TermId} {values : List Value}
    (denotes : store.DenotesAll ids values) (distinct : store.Distinct) :
    values.map store.numberOf = ids := by
  induction ids generalizing values with
  | nil =>
      cases values with
      | nil => rfl
      | cons => exact denotes.elim
  | cons id ids ih =>
      cases values with
      | nil => exact denotes.elim
      | cons value values => rw [List.map_cons, denotes.1.numberOf_eq distinct, ih denotes.2]

theorem Denotes.resolve_eq {id : TermId} {value : Value} (denotes : store.Denotes id value)
    (distinct : store.Distinct) : store.resolve id = some (value.ground store.numberOf) := by
  cases value with
  | bool | int | str => exact denotes
  | ctor name values =>
      obtain ⟨args, resolved, denotesArgs⟩ := denotes
      rw [Value.ground, denotesArgs.map_numberOf distinct, resolved]

theorem DenotesAll.decode_eq {tuple : Tuple} {row : List Value} (denotes : store.DenotesAll tuple row)
    (distinct : store.Distinct) : store.decode tuple = row.map (Value.ground store.numberOf) := by
  induction tuple generalizing row with
  | nil =>
      cases row with
      | nil => rfl
      | cons => exact denotes.elim
  | cons id tuple ih =>
      cases row with
      | nil => exact denotes.elim
      | cons value row =>
          rw [decode, List.filterMap_cons_some (denotes.1.resolve_eq distinct)]
          exact congrArg _ (ih denotes.2)

theorem decode_injective {tuple other : Tuple} {row row' : List Value} (distinct : store.Distinct)
    (denotes : store.DenotesAll tuple row) (denotes' : store.DenotesAll other row')
    (same : store.decode tuple = store.decode other) : tuple = other := by
  rw [denotes.decode_eq distinct, denotes'.decode_eq distinct] at same
  induction tuple generalizing other row row' with
  | nil =>
      cases row with
      | nil =>
          obtain rfl := List.map_eq_nil_iff.mp same.symm
          exact (List.length_eq_zero_iff.mp denotes'.length_eq).symm
      | cons => exact denotes.elim
  | cons id tuple ih =>
      match row, other, row' with
      | [], _, _ => exact denotes.elim
      | value :: row, [], [] => cases same
      | value :: row, [], _ :: _ => exact denotes'.elim
      | value :: row, id' :: other, [] => exact denotes'.elim
      | value :: row, id' :: other, value' :: row' =>
          obtain ⟨first, rest⟩ := List.cons.inj same
          have resolved := denotes'.1.resolve_eq distinct
          rw [← first] at resolved
          rw [distinct.resolve_injective (denotes.1.resolve_eq distinct) resolved,
            ih denotes.2 denotes'.2 rest]

/-! ## Sorted tuples -/

/-- A tuple may be listed before another. -/
def Ordered (store : TermStore) (left right : Tuple) : Prop :=
  (compareLex (compareOn store.decode) Ord.compare left right).isLE = true

instance : DecidableRel store.Ordered := fun _ _ =>
  inferInstanceAs (Decidable (Ordering.isLE _ = true))

instance : IsTrans Tuple store.Ordered where
  trans _ _ _ := Std.TransCmp.isLE_trans

instance : Std.Total store.Ordered where
  total left right := by
    have swapped : compareLex (compareOn store.decode) Ord.compare right left =
        (compareLex (compareOn store.decode) Ord.compare left right).swap := Std.OrientedCmp.eq_swap
    rw [Ordered, Ordered, swapped]
    cases compareLex (compareOn store.decode) Ord.compare left right <;> decide

instance : Std.Antisymm store.Ordered where
  antisymm left right before after := by
    have alike := Std.OrientedCmp.isLE_antisymm before after
    exact Std.LawfulEqOrd.eq_of_compare (Ordering.then_eq_eq.mp alike).2

theorem sortTuples_eq_insertionSort (store : TermStore) (tuples : List Tuple) :
    store.sortTuples tuples = tuples.insertionSort store.Ordered := by
  rw [← List.mergeSort_eq_insertionSort]
  apply congrArg (tuples.mergeSort ·)
  funext left right
  exact (Bool.decide_eq_true (b := Ordering.isLE _)).symm

theorem pairwise_sortTuples (store : TermStore) {tuples : List Tuple} (once : tuples.Nodup) :
    (store.sortTuples tuples).Pairwise fun left right =>
      (Ord.compare (store.decode left) (store.decode right)).isLE = true ∧ left ≠ right := by
  rw [sortTuples_eq_insertionSort]
  have nodup := (List.perm_insertionSort store.Ordered tuples).nodup_iff.mpr once
  exact (List.pairwise_insertionSort store.Ordered tuples).imp₂
    (fun _ _ ordered different => ⟨Ordering.isLE_left_of_isLE_then ordered, different⟩) nodup

/-! ## Sorted rows -/

/-- Rows list the contents of a relation in the order of a store. -/
structure Lists (store : TermStore) (rows : List (List Value)) (contents : Set (List Value)) :
    Prop where
  mem_iff : ∀ row, row ∈ rows ↔ row ∈ contents
  sorted : rows.Pairwise (Value.Precedes store.numberOf)

/-- The tuples of a relation are listed as the rows that they denote. -/
theorem exists_lists {tuples : List Tuple} (distinct : store.Distinct) (once : tuples.Nodup)
    (denoted : ∀ tuple ∈ tuples, ∃ row, store.DenotesAll tuple row) :
    ∃ rows, store.Lists rows {row | ∃ tuple ∈ tuples, store.DenotesAll tuple row} ∧
      (store.sortTuples tuples).map store.renderTuple = rows.map Value.renderRow := by
  choose! rowOf denotes using denoted
  have members : ∀ tuple, tuple ∈ store.sortTuples tuples ↔ tuple ∈ tuples :=
    fun tuple => List.mem_mergeSort
  refine ⟨(store.sortTuples tuples).map rowOf, ⟨fun row => ?_, ?_⟩, ?_⟩
  · rw [List.mem_map]
    constructor
    · rintro ⟨tuple, member, rfl⟩
      have listed := (members tuple).mp member
      exact ⟨tuple, listed, denotes tuple listed⟩
    · rintro ⟨tuple, member, denotesRow⟩
      exact ⟨tuple, (members tuple).mpr member, (denotes tuple member).unique denotesRow⟩
  · rw [List.pairwise_map]
    apply (store.pairwise_sortTuples once).imp_of_mem
    intro left right inLeft inRight ⟨ordered, different⟩
    have denotesLeft := denotes left ((members left).mp inLeft)
    have denotesRight := denotes right ((members right).mp inRight)
    have apart : Ord.compare (store.decode left) (store.decode right) ≠ .eq := fun same =>
      different (decode_injective distinct denotesLeft denotesRight (Std.LawfulEqOrd.eq_of_compare same))
    rw [denotesLeft.decode_eq distinct, denotesRight.decode_eq distinct] at ordered apart
    exact (Ordering.isLE_iff_eq_lt_or_eq_eq.mp ordered).resolve_right apart
  · rw [List.map_map]
    apply List.map_congr_left
    intro tuple member
    exact renderTuple_of_denotes (denotes tuple ((members tuple).mp member))

theorem Lists.nodup (lists : store.Lists rows contents) : rows.Nodup :=
  lists.sorted.nodup

/-- All stores list the same rows. -/
theorem Lists.perm (lists : store.Lists rows contents) (lists' : store'.Lists rows' contents) :
    rows.Perm rows' :=
  (List.perm_ext_iff_of_nodup lists.nodup lists'.nodup).mpr fun row =>
    (lists.mem_iff row).trans (lists'.mem_iff row).symm

/-- Two stores list the same rows in the same order exactly if their numbers agree on the order of
rows that differ inside. -/
theorem Lists.eq_iff (lists : store.Lists rows contents) (lists' : store'.Lists rows' contents) :
    rows = rows' ↔ ∀ row ∈ contents, ∀ other ∈ contents, Value.DifferInside row other →
      Value.compareRows store.numberOf row other = Value.compareRows store'.numberOf row other := by
  constructor
  · rintro rfl row member other member' inside
    have agree : rows.Pairwise fun row other =>
        Value.compareRows store.numberOf row other = Value.compareRows store'.numberOf row other :=
      lists.sorted.imp₂ (fun _ _ before before' => before.trans before'.symm) lists'.sorted
    have symmetric : Std.Symm fun row other =>
        Value.compareRows store.numberOf row other = Value.compareRows store'.numberOf row other := by
      constructor
      intro row other same
      have turn : ∀ number,
          Value.compareRows number other row = (Value.compareRows number row other).swap :=
        fun _ => Std.OrientedCmp.eq_swap
      rw [turn, turn, same]
    exact agree.forall ((lists.mem_iff row).mpr member) ((lists.mem_iff other).mpr member') inside.ne
  · intro agree
    apply lists.sorted.eq_of_mem_iff
    · apply lists'.sorted.imp_of_mem
      intro row other member member' precedes
      by_cases inside : Value.DifferInside row other
      · exact (agree row ((lists'.mem_iff row).mp member) other ((lists'.mem_iff other).mp member')
          inside).trans precedes
      · exact (Value.compareRows_congr inside).trans precedes
    · exact fun row => (lists.mem_iff row).trans (lists'.mem_iff row).symm

end TermStore

end Datalog
