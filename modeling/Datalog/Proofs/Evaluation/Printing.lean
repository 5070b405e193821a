import Datalog.Function.Builtin
import Datalog.Proofs.Evaluation.LoadFailure
import Datalog.Proofs.Semantics.Rendering

/-!
# The written form of what was interned

A term is written along its syntax, and a number along the interned terms that its arguments lead to.
A ground term without calls and the number that it is interned under are written alike, from the moment
of interning on, and so are rows of terms and tuples of numbers.
-/

namespace Datalog

variable {functions : Registry}

namespace Term

mutual

/-- A ground term without calls is interned as the value that it writes out. -/
theorem normalize_denotes : (term : Term) → term.isGround = true → term.containsCall = false →
    {store later : TermStore} → {id : TermId} →
      term.normalize functions store = .ok id later → later.HasRoom →
        ∃ value : Value, value.toTerm = term ∧ later.Denotes id value
  | .var _, ground, _, _, _, _, _, _ => by cases ground
  | .bool value, _, _, store, later, id, evaluated, room => by
      unfold normalize at evaluated
      cases evaluated
      exact ⟨.bool value, rfl, TermStore.resolve_intern room⟩
  | .int value, _, _, store, later, id, evaluated, room => by
      unfold normalize at evaluated
      cases evaluated
      exact ⟨.int value, rfl, TermStore.resolve_intern room⟩
  | .str value, _, _, store, later, id, evaluated, room => by
      unfold normalize at evaluated
      cases evaluated
      exact ⟨.str value, rfl, TermStore.resolve_intern room⟩
  | .ctor name args, ground, noCall, store, later, id, evaluated, room => by
      unfold normalize at evaluated
      obtain ⟨ids, middle, argsEq, interned⟩ := bind_eq_ok.mp evaluated
      have grown := (interns_internTerm (.ctor name ids) middle).of_ok interned
      obtain ⟨values, rfl, denotes⟩ :=
        normalizeList_denotes args ground noCall argsEq (grown.hasRoom room)
      cases interned
      exact ⟨.ctor name values, rfl, TermStore.denotes_intern_ctor denotes room⟩
  | .call _ _, _, noCall, _, _, _, _, _ => by cases noCall

theorem normalizeList_denotes : (terms : List Term) → isGroundList terms = true →
    containsCallList terms = false → {store later : TermStore} → {ids : List TermId} →
      normalizeList functions terms store = .ok ids later → later.HasRoom →
        ∃ values : List Value, Value.toTermList values = terms ∧ later.DenotesAll ids values
  | [], _, _, store, later, ids, evaluated, room => by
      unfold normalizeList at evaluated
      cases evaluated
      exact ⟨[], rfl, trivial⟩
  | term :: terms, ground, noCall, store, later, ids, evaluated, room => by
      obtain ⟨groundFirst, groundRest⟩ := Bool.and_eq_true_iff.mp ground
      obtain ⟨noCallFirst, noCallRest⟩ := Bool.or_eq_false_iff.mp noCall
      rw [normalizeList] at evaluated
      obtain ⟨id, middle, first, evaluated⟩ := bind_eq_ok.mp evaluated
      obtain ⟨rest, last, others, same⟩ := bind_eq_ok.mp evaluated
      cases same
      have grown := (interns_normalizeList functions terms middle).of_ok others
      obtain ⟨value, rfl, denotes⟩ :=
        normalize_denotes term groundFirst noCallFirst first (grown.hasRoom room)
      obtain ⟨values, rfl, denotesAll⟩ :=
        normalizeList_denotes terms groundRest noCallRest others room
      exact ⟨value :: values, rfl, denotes.mono grown, denotesAll⟩

end

end Term

namespace TermStore

/-- A number was handed out for a term while there was room, and terms were only added since. -/
def Issued (functions : Registry) (last : TermStore) (id : TermId) (term : Term) : Prop :=
  ∃ store later : TermStore, term.normalize functions store = .ok id later ∧ later.HasRoom ∧
    last.Extends later

variable {last : TermStore} {id : TermId} {term : Term}

theorem Issued.denotes (issued : last.Issued functions id term) (ground : term.isGround = true)
    (noCall : term.containsCall = false) :
    ∃ value : Value, value.toTerm = term ∧ last.Denotes id value := by
  obtain ⟨store, later, evaluated, room, grown⟩ := issued
  obtain ⟨value, written, denotes⟩ := term.normalize_denotes ground noCall evaluated room
  exact ⟨value, written, denotes.mono grown⟩

/-- What was handed out for a term is written as the term. -/
theorem Issued.render_eq (issued : last.Issued functions id term) (ground : term.isGround = true)
    (noCall : term.containsCall = false) : last.render id = term.render := by
  obtain ⟨value, rfl, denotes⟩ := issued.denotes ground noCall
  exact render_of_denotes denotes

/-- What was handed out for several terms is written as the terms. -/
theorem map_render_of_issued {tuple : Tuple} {terms : List Term}
    (issued : List.Forall₂ (last.Issued functions) tuple terms)
    (ground : ∀ term ∈ terms, term.isGround = true)
    (noCall : ∀ term ∈ terms, term.containsCall = false) :
    tuple.map last.render = terms.map Term.render := by
  induction issued with
  | nil => rfl
  | cons here _ ih =>
      obtain ⟨groundHere, groundThere⟩ := List.forall_mem_cons.mp ground
      obtain ⟨noCallHere, noCallThere⟩ := List.forall_mem_cons.mp noCall
      rw [List.map_cons, List.map_cons, here.render_eq groundHere noCallHere,
        ih groundThere noCallThere]

/-- A ground term without calls is interned in whatever store, and from then on its number is written as
the term.  A tuple of such numbers is written as the terms are, separated by commas and in
parentheses. -/
theorem render_normalize (functions : Registry) (terms : List Term)
    (ground : ∀ term ∈ terms, term.isGround = true)
    (noCall : ∀ term ∈ terms, term.containsCall = false) :
    (∀ term ∈ terms, ∀ store : TermStore, ∃ id later,
      term.normalize functions store = .ok id later ∧ later.Extends store ∧
        (later.HasRoom → ∀ last : TermStore, last.Extends later → last.render id = term.render)) ∧
    ∀ (last : TermStore) (tuple : Tuple), List.Forall₂ (last.Issued functions) tuple terms →
      last.renderTuple tuple = "(" ++ Text.commaSeparated (terms.map Term.render) ++ ")" := by
  constructor
  · intro term member store
    have groundHere := ground term member
    have noCallHere := noCall term member
    obtain ⟨id, later, evaluated⟩ := term.normalize_of_callFree functions groundHere noCallHere store
    have grown := (Term.interns_normalize functions term store).of_ok evaluated
    apply Exists.intro id
    apply Exists.intro later
    constructor
    · exact evaluated
    constructor
    · exact grown
    · intro room last extended
      have issued : last.Issued functions id term := ⟨store, later, evaluated, room, extended⟩
      exact issued.render_eq groundHere noCallHere
  · intro last tuple issued
    rw [renderTuple, map_render_of_issued issued ground noCall, Text.parenthesized]

end TermStore

/-! ## A row of terms -/

namespace Sample

/-- A quoted text with a quote in it, an integer below zero and a constructor without arguments. -/
def writtenRow : List Term :=
  [.ctor "pair" [.str "a\"b", .ctor "nil" []], .int (-3)]

/-- What the row is interned as, with another term in front. -/
def writtenTerms : TermStore where
  terms := #[.bool true, .str "a\"b", .ctor "nil" [], .ctor "pair" [⟨1⟩, ⟨2⟩], .int (-3)]

end Sample

theorem render_normalize_sample :
    (∀ term ∈ Sample.writtenRow, term.isGround = true) ∧
      (∀ term ∈ Sample.writtenRow, term.containsCall = false) ∧
      (∃ id later, (Term.int (-3)).normalize .builtins Sample.writtenTerms = .ok id later ∧
        later.Extends Sample.writtenTerms ∧
          (later.HasRoom → ∀ last : TermStore, last.Extends later → last.render id = "-3")) ∧
      List.Forall₂ (Sample.writtenTerms.Issued .builtins) [⟨3⟩, ⟨4⟩] Sample.writtenRow ∧
      Sample.writtenTerms.renderTuple [⟨3⟩, ⟨4⟩] = "(pair(\"a\\\"b\", nil), -3)" := by
  have ground : ∀ term ∈ Sample.writtenRow, term.isGround = true := by decide
  have noCall : ∀ term ∈ Sample.writtenRow, term.containsCall = false := by decide
  have issuedFirst : Sample.writtenTerms.Issued .builtins ⟨3⟩
      (.ctor "pair" [.str "a\"b", .ctor "nil" []]) :=
    ⟨{ terms := #[.bool true] }, { terms := #[.bool true, .str "a\"b", .ctor "nil" [],
      .ctor "pair" [⟨1⟩, ⟨2⟩]] }, by with_unfolding_all rfl, by decide, [.int (-3)], rfl⟩
  have issuedSecond : Sample.writtenTerms.Issued .builtins ⟨4⟩ (.int (-3)) :=
    ⟨Sample.writtenTerms, Sample.writtenTerms, by with_unfolding_all rfl, by decide, .refl _⟩
  have issued : List.Forall₂ (Sample.writtenTerms.Issued .builtins) [⟨3⟩, ⟨4⟩] Sample.writtenRow :=
    .cons issuedFirst (.cons issuedSecond .nil)
  obtain ⟨each, together⟩ := TermStore.render_normalize .builtins Sample.writtenRow ground noCall
  constructor
  · exact ground
  constructor
  · exact noCall
  constructor
  · obtain ⟨id, later, evaluated, grown, written⟩ :=
      each (.int (-3)) (by simp [Sample.writtenRow]) Sample.writtenTerms
    have text : (Term.int (-3)).render = "-3" := by decide +kernel
    exact ⟨id, later, evaluated, grown, text ▸ written⟩
  constructor
  · exact issued
  · rw [together _ _ issued]
    decide +kernel

end Datalog
