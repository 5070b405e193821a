import Datalog.Proofs.Store.Division
import Mathlib.Logic.Relation

/-!
# Sharing a lookup among tasks

A view is split, its parts are split again, and every part that is not split is read by a task.
Meanwhile tuples are added to the index.  A split looks at the index several times: for the ends of the
range, for every probe, and for either half if it is copied.  Additions may come between any two of
these looks, and between any two tuples that are read.  However the parts are split and read, their
cursors divide the cursor of the view.
-/

namespace Datalog

variable {arity : Nat} {index : Index} {limits : ViewLimits} {keys : KeyRange}

/-! ## Tasks -/

/-- What a task does with its part of a view. -/
inductive Share where
  | waiting (view : View)
  /-- It looks for the middle of a range, whose first and last key it has seen. -/
  | probing (keys : KeyRange) (count : Nat) (first last : Key) (best : Option Split.Middle)
  /-- The lower half has become a view of its own, and the upper half is still to be looked up. -/
  | upperHalf (keys : KeyRange) (count : Nat)
  /-- It reads its view and has handed out some tuples. -/
  | reading (read : List Tuple) (cursor : Cursor)
  | finished (read : List Tuple)
  deriving DecidableEq, Inhabited

namespace Share

def read : Share → List Tuple
  | .reading read _ | .finished read => read
  | _ => []

/-- What has been handed out and what may still be. -/
def cursor : Share → Cursor
  | .waiting view => view.cursor
  | .probing keys .. | .upperHalf keys _ => { buffer := [], rest := some keys }
  | .reading read cursor => { cursor with buffer := read ++ cursor.buffer }
  | .finished read => { buffer := read, rest := none }

/-- One look at the index, by the task that has a share. -/
inductive Step (index : Index) (limits : ViewLimits) : Share → List Share → Prop
  | halve {tuples : List Tuple} {left right : View} {draws : Draws}
      (splitEq : ((View.array tuples).split index limits draws).1 = some (left, right)) :
      Step index limits (.waiting (.array tuples)) [.waiting left, .waiting right]
  | search {keys : KeyRange} {count : Nat} {first last : Entry} (several : 2 ≤ count)
      (firstEq : (index.entriesIn keys).head? = some first)
      (lastEq : (index.entriesIn keys).getLast? = some last) (columns : first.key.isEmpty = false) :
      Step index limits (.waiting (.range keys count)) [.probing keys count first.key last.key none]
  | probe {keys : KeyRange} {count : Nat} {first last : Key} {best : Option Split.Middle}
      (draws : Draws) :
      Step index limits (.probing keys count first last best)
        [.probing keys count first last
          (Split.findMiddle index keys count first last 1 best draws).1]
  | giveUp {keys : KeyRange} {count : Nat} {first last : Key} :
      Step index limits (.probing keys count first last none) [.waiting (.range keys count)]
  | lowerHalf {keys : KeyRange} {count : Nat} {first last : Key} {middle : Split.Middle} :
      Step index limits (.probing keys count first last (some middle))
        [.waiting (Split.part index limits { keys with upper := .excluded middle.key } middle.below),
          .upperHalf { keys with lower := .included middle.key } (count - middle.below)]
  | upperHalf {keys : KeyRange} {count : Nat} :
      Step index limits (.upperHalf keys count) [.waiting (Split.part index limits keys count)]
  | start {view : View} : Step index limits (.waiting view) [.reading [] view.cursor]
  | next {read : List Tuple} {cursor rest : Cursor} {tuple : Tuple}
      (nextEq : cursor.next index = some (tuple, rest)) :
      Step index limits (.reading read cursor) [.reading (read ++ [tuple]) rest]
  | finish {read : List Tuple} {cursor : Cursor} (ended : cursor.next index = none) :
      Step index limits (.reading read cursor) [.finished read]

def Fits (length : Nat) : Share → Prop
  | .probing keys _ first last best =>
      (first.length = length ∧ last.length = length) ∧
        (keys.contains first = true ∧ keys.contains last = true) ∧
          Key.rank first ≤ Key.rank last ∧ ∀ middle ∈ best, middle.Between first last
  | _ => True

theorem Fits.middle {count : Nat} {first last : Key} {middle : Split.Middle} {length : Nat}
    (fits : (Share.probing keys count first last (some middle)).Fits length)
    (hasLength : keys.HasLength length) :
    middle.key.length = length ∧ keys.contains middle.key = true := by
  obtain ⟨⟨firstLength, lastLength⟩, ⟨firstIn, lastIn⟩, -, between⟩ := fits
  exact (between middle rfl).inside hasLength firstLength lastLength firstIn lastIn

theorem Step.divides {share : Share} {parts : List Share} (step : share.Step index limits parts)
    (indexValid : index.Valid arity) (valid : share.cursor.Valid index)
    (fits : share.Fits index.pattern.keyColumns.length) :
    Cursor.Divides index limits index.entries share.cursor (parts.map cursor) := by
  cases step with
  | @halve tuples left right draws splitEq =>
      simp only [View.split] at splitEq
      split at splitEq
      · simp at splitEq
      · obtain ⟨rfl, rfl⟩ := Prod.mk.inj (Option.some.inj splitEq)
        simp only [cursor, View.cursor, List.map_cons, List.map_nil] at valid ⊢
        rw [← List.take_append_drop (tuples.length / 2) tuples] at valid
        have divides := @Cursor.divides_append _ limits _ _ valid
        rwa [List.take_append_drop] at divides
  | search | probe | giveUp => exact .refl valid
  | lowerHalf =>
      have hasLength := valid.hasLength _ rfl
      obtain ⟨length, contained⟩ := fits.middle hasLength
      have lowLength := hasLength.withUpper length
      have halves := @Cursor.divides_at _ limits _ hasLength _ length contained
      exact @Cursor.Divides.replace _ _ _ _ _ [] _ _ halves (fun _ => id)
        (Cursor.divides_part indexValid lowLength)
  | upperHalf => exact Cursor.divides_part indexValid (valid.hasLength _ rfl)
  | start => exact .refl valid
  | next nextEq => exact Cursor.divides_next indexValid valid nextEq
  | finish ended => exact Cursor.divides_of_next_eq_none valid ended

theorem Step.fits {share : Share} {parts : List Share} (step : share.Step index limits parts)
    (indexValid : index.Valid arity) (fits : share.Fits index.pattern.keyColumns.length) :
    ∀ part ∈ parts, part.Fits index.pattern.keyColumns.length := by
  cases step with
  | search several firstEq lastEq columns =>
      obtain ⟨firstMember, firstIn⟩ := Index.mem_entriesIn.mp (List.mem_of_head? firstEq)
      obtain ⟨lastMember, lastIn⟩ := Index.mem_entriesIn.mp (List.mem_of_getLast? lastEq)
      have lengths := And.intro (indexValid.key_length firstMember) (indexValid.key_length lastMember)
      simpa [Fits] using ⟨lengths, ⟨firstIn, lastIn⟩, View.rank_head_le_getLast indexValid firstEq lastEq⟩
  | probe draws =>
      obtain ⟨lengths, contained, ordered, between⟩ := fits
      simp only [List.mem_singleton, forall_eq]
      exact ⟨lengths, contained, ordered,
        Split.findMiddle_between (lengths.1.trans lengths.2.symm) ordered between⟩
  | _ => simp [Fits]

end Share

/-- An index and the tasks that share a view of it, the lower keys first. -/
structure Sharing where
  index : Index
  shares : List Share
  deriving DecidableEq, Inhabited

namespace Sharing

/-- A tuple is added to the index, or some task takes a step. -/
inductive Step (limits : ViewLimits) : Sharing → Sharing → Prop
  | insert {index : Index} {shares : List Share} {tuple : Tuple}
      (length : tuple.length = index.pattern.length) :
      Step limits ⟨index, shares⟩ ⟨(index.insert tuple).2, shares⟩
  | share {index : Index} {before parts after : List Share} {share : Share}
      (step : share.Step index limits parts) :
      Step limits ⟨index, before ++ share :: after⟩ ⟨index, before ++ parts ++ after⟩

def Run (limits : ViewLimits) : Sharing → Sharing → Prop :=
  Relation.ReflTransGen (Step limits)

/-- The tuples that the tasks have handed out. -/
def read (sharing : Sharing) : List Tuple :=
  sharing.shares.flatMap Share.read

end Sharing

/-! ## Runs of one task -/

namespace Share

variable {share part : Share} {parts : List Share} {view left right : View}

/-- With no other steps in between a share becomes some parts. -/
def Becomes (index : Index) (limits : ViewLimits) (share : Share) (parts : List Share) : Prop :=
  ∀ before after, Sharing.Run limits ⟨index, before ++ share :: after⟩
    ⟨index, before ++ parts ++ after⟩

theorem Step.becomes (step : share.Step index limits parts) : share.Becomes index limits parts :=
  fun _ _ => .single (.share step)

theorem Becomes.refl (share : Share) : share.Becomes index limits [share] := fun before after => by
  rw [List.append_assoc, List.singleton_append]
  exact Relation.ReflTransGen.refl

theorem Becomes.replace (front back : List Share)
    (becomes : share.Becomes index limits (front ++ part :: back))
    (rest : part.Becomes index limits parts) :
    share.Becomes index limits (front ++ parts ++ back) := fun before after => by
  have first := becomes before after
  have second := rest (before ++ front) (back ++ after)
  simp only [List.append_assoc, List.cons_append] at first second ⊢
  exact first.trans second

theorem Becomes.trans (becomes : share.Becomes index limits [part])
    (rest : part.Becomes index limits parts) : share.Becomes index limits parts := by
  simpa using becomes.replace [] [] rest

theorem becomes_findMiddle {count : Nat} {first last : Key} (guesses : Nat)
    (best : Option Split.Middle) (draws : Draws) :
    (probing keys count first last best).Becomes index limits
      [probing keys count first last
        (Split.findMiddle index keys count first last guesses best draws).1] := by
  -- A search with one guess is a single step, and a longer one goes on from what this step found.
  induction guesses generalizing best draws with
  | zero => exact .refl _
  | succ guesses ih =>
      have probed := (@Step.probe index limits keys count first last best draws).becomes
      rw [Split.findMiddle] at probed ⊢
      dsimp only at probed ⊢
      split
      · exact ih best _
      · next better =>
          rw [if_neg better] at probed
          split
          · next near =>
              rwa [if_pos near] at probed
          · next far =>
              rw [if_neg far, Split.findMiddle] at probed
              exact probed.trans (ih _ _)

/-- A view that is split at one moment becomes its halves. -/
theorem becomes_split {draws : Draws}
    (splitEq : (view.split index limits draws).1 = some (left, right)) :
    (waiting view).Becomes index limits [waiting left, waiting right] := by
  cases view with
  | array tuples => exact (Step.halve splitEq).becomes
  | range keys count =>
      simp only [View.split] at splitEq
      split at splitEq
      · next first last firstEq lastEq =>
          split at splitEq
          · simp at splitEq
          · next goesOn =>
              simp only [Bool.or_eq_true, decide_eq_true_eq, not_or, Nat.not_lt,
                Bool.not_eq_true] at goesOn
              obtain ⟨middle, middleEq, partsEq⟩ := Option.map_eq_some_iff.mp splitEq
              obtain ⟨rfl, rfl⟩ := Prod.mk.inj partsEq
              have searched := (@Step.search _ limits _ _ _ _ goesOn.1 firstEq lastEq goesOn.2).becomes
              have found := @becomes_findMiddle index limits keys count first.key last.key
                limits.numGuesses.toNat none draws
              rw [middleEq] at found
              have halved := (searched.trans found).trans Step.lowerHalf.becomes
              exact halved.replace [_] [] Step.upperHalf.becomes
      · simp at splitEq

/-- A task that is not disturbed comes to its end. -/
def Ends (index : Index) (limits : ViewLimits) (share : Share) : Prop :=
  ∃ parts, share.Becomes index limits parts ∧ ∀ part ∈ parts, ∃ read, part = .finished read

theorem Ends.of_step (step : share.Step index limits [part]) (ends : part.Ends index limits) :
    share.Ends index limits := by
  obtain ⟨parts, becomes, finished⟩ := ends
  exact ⟨parts, step.becomes.trans becomes, finished⟩

theorem becomes_reading {tuples read : List Tuple} {cursor : Cursor}
    (reads : cursor.Reads index tuples) :
    (reading read cursor).Becomes index limits [finished (read ++ tuples)] := by
  induction reads generalizing read with
  | ended none => simpa using (Step.finish none).becomes
  | handed next _ ih => simpa using (Step.next next).becomes.trans ih

theorem becomes_waiting {tuples : List Tuple} (reads : view.cursor.Reads index tuples) :
    (waiting view).Becomes index limits [finished tuples] :=
  Step.start.becomes.trans (becomes_reading reads)

theorem ends_waiting (indexValid : index.Valid arity) (valid : (waiting view).cursor.Valid index) :
    (waiting view).Ends index limits := by
  obtain ⟨tuples, reads⟩ := Cursor.exists_reads indexValid valid.hasLength
  exact ⟨_, becomes_waiting reads, by simp⟩

theorem ends_upperHalf (indexValid : index.Valid arity) {count : Nat}
    (valid : (upperHalf keys count).cursor.Valid index) :
    (upperHalf keys count).Ends index limits := by
  have looked := @Cursor.divides_part _ _ limits _ indexValid (valid.hasLength _ rfl) count
  exact .of_step .upperHalf (ends_waiting indexValid (looked.valid _ List.mem_cons_self))

/-- Wherever a task is, it comes to its end if it is not disturbed. -/
theorem ends (indexValid : index.Valid arity) (valid : share.cursor.Valid index)
    (fits : share.Fits index.pattern.keyColumns.length) : share.Ends index limits := by
  cases share with
  | waiting view => exact ends_waiting indexValid valid
  | upperHalf keys count => exact ends_upperHalf indexValid valid
  | probing keys count first last best =>
      cases best with
      | none => exact .of_step .giveUp (ends_waiting indexValid valid)
      | some middle =>
          -- Both halves are read to their ends, the lower one first.
          have step := @Step.lowerHalf index limits keys count first last middle
          have halves := step.divides indexValid valid fits
          obtain ⟨lower, lowerBecomes, lowerFinished⟩ :=
            @ends_waiting _ _ limits _ indexValid (halves.valid _ List.mem_cons_self)
          obtain ⟨upper, upperBecomes, upperFinished⟩ := @ends_upperHalf _ _ limits _ indexValid _
            (halves.valid _ (List.mem_cons_of_mem _ List.mem_cons_self))
          have bothRead := (step.becomes.replace [] [_] lowerBecomes).replace _ [] upperBecomes
          refine ⟨_, bothRead, fun part member => ?_⟩
          simp only [List.nil_append, List.append_nil] at member
          exact (List.mem_append.mp member).elim (lowerFinished part) (upperFinished part)
  | reading read cursor =>
      have readable : ∃ tuples, cursor.Reads index tuples :=
        Cursor.exists_reads indexValid valid.hasLength
      exact ⟨_, becomes_reading readable.choose_spec, by simp⟩
  | finished read => exact ⟨_, .refl _, by simp⟩

end Share

/-! ## What is delivered -/

namespace Sharing

/-- One task after another is run to its end. -/
theorem exists_run_finished {shares : List Share}
    (allEnd : ∀ share ∈ shares, share.Ends index limits) (done : List Share) :
    ∃ parts, Run limits ⟨index, done ++ shares⟩ ⟨index, done ++ parts⟩ ∧
      ∀ part ∈ parts, ∃ read, part = .finished read := by
  induction shares generalizing done with
  | nil => exact ⟨[], .refl, by simp⟩
  | cons share shares ih =>
      obtain ⟨⟨first, becomes, firstFinished⟩, othersEnd⟩ := List.forall_mem_cons.mp allEnd
      obtain ⟨others, run, othersFinished⟩ := ih othersEnd (done ++ first)
      refine ⟨first ++ others, ?_, fun part member =>
        (List.mem_append.mp member).elim (firstFinished part) (othersFinished part)⟩
      rw [← List.append_assoc]
      exact (becomes done shares).trans run

/-- The shares divide what there was at the start. -/
structure Keeps (arity : Nat) (limits : ViewLimits) (start : Index) (whole : Cursor)
    (sharing : Sharing) : Prop where
  valid : sharing.index.Valid arity
  grown : sharing.index.Grows start
  fits : ∀ share ∈ sharing.shares, share.Fits sharing.index.pattern.keyColumns.length
  divides : Cursor.Divides sharing.index limits start.entries whole
    (sharing.shares.map Share.cursor)

variable {start : Index} {whole : Cursor} {sharing sharing' : Sharing}

theorem Keeps.step (keeps : Keeps arity limits start whole sharing)
    (step : Step limits sharing sharing') : Keeps arity limits start whole sharing' := by
  obtain ⟨valid, grown, fits, divides⟩ := keeps
  cases step with
  | @insert index shares tuple length =>
      have inserted := Index.grows_insert index tuple
      refine ⟨valid.insert (length.trans valid.arity_eq), inserted.trans grown, ?_,
        divides.mono inserted⟩
      rwa [inserted.pattern_eq]
  | @share index before parts after share step =>
      have here : share ∈ before ++ share :: after := by simp
      have shareValid := divides.valid share.cursor (List.mem_map_of_mem here)
      have divided := step.divides valid shareValid (fits share here)
      refine ⟨valid, grown, fun other member => ?_, ?_⟩
      · simp only [List.mem_append, or_assoc] at member
        rcases member with member | member | member
        · exact fits other (by simp [member])
        · exact step.fits valid (fits share here) other member
        · exact fits other (by simp [member])
      · simp only [List.map_append, List.map_cons] at divides ⊢
        exact divides.replace grown.kept divided

theorem Keeps.run (keeps : Keeps arity limits start whole sharing)
    (run : Run limits sharing sharing') : Keeps arity limits start whole sharing' := by
  induction run with
  | refl => exact keeps
  | tail _ step ih => exact ih.step step

/-- From every state of a run all tasks can finish. -/
theorem Keeps.exists_run_finished (keeps : sharing.Keeps arity limits start whole) :
    ∃ parts, Run limits sharing ⟨sharing.index, parts⟩ ∧
      ∀ part ∈ parts, ∃ read, part = .finished read :=
  Sharing.exists_run_finished (fun share member => share.ends keeps.valid
    (keeps.divides.valid _ (List.mem_map_of_mem member)) (keeps.fits share member)) []

/-- The tuples that have been handed out stand in the index under keys that the view reaches, and
their keys increase. -/
theorem Keeps.read (keeps : Keeps arity limits start whole sharing) :
    sharing.read.Pairwise (fun first second =>
        start.pattern.keyOf first < start.pattern.keyOf second) ∧
      ∀ tuple ∈ sharing.read, tuple ∈ sharing.index.tuples ∧
        whole.Reaches start.pattern (start.pattern.keyOf tuple) := by
  obtain ⟨-, grown, -, divides⟩ := keeps
  have inBuffer : ∀ share : Share, share.read.Sublist share.cursor.buffer := by
    intro share
    cases share <;> simp [Share.read, Share.cursor]
  rw [← grown.pattern_eq]
  refine ⟨List.pairwise_flatMap.mpr ⟨fun share member => ?_, ?_⟩, fun tuple member => ?_⟩
  · have valid := divides.valid share.cursor (List.mem_map_of_mem member)
    exact valid.sorted.sublist (inBuffer share)
  · refine (List.pairwise_map.mp divides.ordered).imp fun {lower upper} below => ?_
    intro first firstMember second secondMember
    exact below _ _ (.inl ⟨first, (inBuffer lower).subset firstMember, rfl⟩)
      (.inl ⟨second, (inBuffer upper).subset secondMember, rfl⟩)
  · obtain ⟨share, shareMember, tupleMember⟩ := List.mem_flatMap.mp member
    have cursorMember := List.mem_map_of_mem (f := Share.cursor) shareMember
    have buffered := (inBuffer share).subset tupleMember
    exact ⟨(divides.valid _ cursorMember).stored tuple buffered,
      divides.inside _ cursorMember _ (.inl ⟨tuple, buffered, rfl⟩)⟩

/-- When all tasks have finished, an entry of the start that the view reached has been handed out. -/
theorem Keeps.mem_read (keeps : Keeps arity limits start whole sharing)
    (finished : ∀ share ∈ sharing.shares, ∃ read, share = .finished read) (bounded : limits.Bounded)
    {entry : Entry} (member : entry ∈ start.entries)
    (reaches : whole.Reaches start.pattern entry.key) : entry.tuple ∈ sharing.read := by
  obtain ⟨valid, grown, -, divides⟩ := keeps
  rw [← grown.pattern_eq] at reaches
  obtain ⟨_, partMember, partReaches⟩ := divides.covers bounded entry member reaches
  obtain ⟨share, shareMember, rfl⟩ := List.mem_map.mp partMember
  obtain ⟨read, rfl⟩ := finished share shareMember
  obtain ⟨tuple, tupleMember, sameKey⟩ := Cursor.reaches_array.mp partReaches
  -- The tuple stands in the index under the key of the entry, and keys are not taken twice.
  obtain ⟨other, otherMember, rfl⟩ := List.mem_map.mp
    ((divides.valid _ partMember).stored tuple tupleMember)
  rw [← valid.keyed other otherMember] at sameKey
  obtain rfl := List.inj_on_of_nodup_map valid.nodup_keys otherMember (grown.kept entry member) sameKey
  exact List.mem_flatMap.mpr ⟨_, shareMember, tupleMember⟩

/-- What the tasks that share a lookup have handed out, told by the index at the time of the lookup. -/
structure Delivers (start : Index) (limits : ViewLimits) (keys : KeyRange) (sharing : Sharing) :
    Prop where
  /-- The keys increase from the first share to the last.  So they do in each share, and none comes
  twice. -/
  sorted : sharing.read.Pairwise fun first second =>
    start.pattern.keyOf first < start.pattern.keyOf second
  sound : ∀ tuple ∈ sharing.read,
    tuple ∈ sharing.index.tuples ∧ keys.contains (start.pattern.keyOf tuple) = true
  /-- After all tasks have finished, none of the tuples that were there is missing or comes twice.  Only
  at the largest limit on copies there is nothing to share. -/
  exact_iff : (∀ share ∈ sharing.shares, ∃ read, share = .finished read) →
    ((∀ entry ∈ start.entriesIn keys, sharing.read.count entry.tuple = 1) ↔
      limits.Bounded ∨ start.entriesIn keys = [])
  /-- Left to themselves all tasks finish. -/
  finishes : ∃ parts, Run limits sharing ⟨sharing.index, parts⟩ ∧
    ∀ part ∈ parts, ∃ read, part = .finished read

/-- Tasks that share the view of a range deliver what was in the range. -/
theorem delivers_of_run (valid : start.Valid arity)
    (hasLength : keys.HasLength start.pattern.keyColumns.length)
    (run : Run limits ⟨start, [.waiting (start.view limits keys)]⟩ sharing) :
    sharing.Delivers start limits keys := by
  have looked := @Cursor.divides_view _ _ limits _ valid hasLength
  have viewValid := looked.valid _ List.mem_cons_self
  have kept : Keeps arity limits start (start.view limits keys).cursor sharing :=
    Keeps.run ⟨valid, .refl start, by simp [Share.Fits], .refl viewValid⟩ run
  obtain ⟨sorted, sound⟩ := kept.read
  have inRange : ∀ key, (start.view limits keys).cursor.Reaches start.pattern key →
      keys.contains key = true := fun key reaches =>
    (Cursor.reaches_range.mp (looked.inside _ List.mem_cons_self key reaches)).2
  refine ⟨sorted, fun tuple member => ?_, fun finished => ⟨fun once => ?_, ?_⟩,
    kept.exists_run_finished⟩
  · obtain ⟨stored, reaches⟩ := sound tuple member
    exact ⟨stored, inRange _ reaches⟩
  · by_contra neither
    obtain ⟨notBounded, nonempty⟩ := not_or.mp neither
    obtain ⟨entry, found⟩ := List.exists_mem_of_ne_nil _ nonempty
    have member := List.count_pos_iff.mp (once entry found ▸ Nat.one_pos)
    have reaches := (sound entry.tuple member).2
    rw [Index.view_of_not_bounded notBounded] at reaches
    simpa using Cursor.reaches_array.mp reaches
  · rintro (bounded | empty) entry found
    · obtain ⟨member, contained⟩ := Index.mem_entriesIn.mp found
      obtain ⟨_, partMember, reaches⟩ := looked.covers bounded entry member
        (Cursor.reaches_range.mpr ⟨valid.key_length member, contained⟩)
      obtain rfl := List.mem_singleton.mp partMember
      have nodup : sharing.read.Nodup := sorted.imp fun {first second} less => by
        rintro rfl
        exact Key.lt_irrefl _ less
      exact List.count_eq_one_of_mem nodup (kept.mem_read finished bounded member reaches)
    · simp [empty] at found

end Sharing

/-- The range of keys that a lookup asks for, and the view that it hands back. -/
inductive Index.LooksUp (index : Index) (limits : ViewLimits) : KeyRange → View → Prop
  | front {front : Key} (length : front.length = index.pattern.boundCount) :
      index.LooksUp limits (index.rangeOf front) (index.lookup limits front)
  | all : index.LooksUp limits {} (index.all limits)

theorem Pattern.boundCount_le (pattern : Pattern) :
    pattern.boundCount ≤ pattern.keyColumns.length := by
  have length : (List.replicate pattern.length (default : TermId)).length = pattern.length := by simp
  rw [← Pattern.length_keepBound length, ← Pattern.length_keyOf pattern (List.replicate _ default),
    Pattern.keyOf_eq length, List.length_append]
  exact Nat.le_add_right _ _

namespace Sharing

variable {pattern : Pattern} {tuples : List Tuple} {view : View} {sharing : Sharing}

/-- However many tuples are added while tasks split the view of a lookup, split its parts and read them,
the tasks hand out tuples of the range only, in the order of their keys and none twice, and none of the
tuples that were there at the time of the lookup is missing in the end; only at the largest limit on
copies, where the limit wraps around, there is nothing to share. -/
theorem delivers (lengths : ∀ tuple ∈ tuples, tuple.length = pattern.length)
    (indexEq : (Index.insertAll { pattern } tuples).2 = index)
    (looksUp : index.LooksUp limits keys view) (run : Run limits ⟨index, [.waiting view]⟩ sharing) :
    sharing.Delivers index limits keys := by
  have valid : index.Valid pattern.length := indexEq ▸ (Index.valid_empty rfl).insertAll lengths
  cases looksUp with
  | front length =>
      have fits := length.le.trans (Pattern.boundCount_le index.pattern)
      exact delivers_of_run valid (KeyRange.hasLength_ofFront fits) run
  | all => exact delivers_of_run valid (KeyRange.hasLength_unbounded _) run

/-- An index of two tuples. -/
def pair : Index :=
  (Index.insertAll { pattern := [.free] } [[⟨1⟩], [⟨2⟩]]).2

/-- The view is split, a tuple is added, and then the halves are read. -/
theorem delivers_sample :
    ∃ sharing, Run ⟨0, 1⟩ ⟨pair, [.waiting (pair.all ⟨0, 1⟩)]⟩ sharing ∧
      sharing.shares = [.finished [[⟨1⟩]], .finished [[⟨2⟩], [⟨3⟩]]] ∧
        sharing.Delivers pair ⟨0, 1⟩ {} := by
  have lengths : ∀ tuple ∈ ([[⟨1⟩], [⟨2⟩]] : List Tuple), tuple.length = 1 := by simp
  have splitEq : ((pair.all ⟨0, 1⟩).split pair ⟨0, 1⟩ { number := fun _ => 1 }).1 =
      some (.range { upper := .excluded [⟨2⟩] } 1, .range { lower := .included [⟨2⟩] } 1) := by
    decide +kernel
  have empty : Index.Valid 1 { pattern := [.free] } := Index.valid_empty rfl
  have pairValid : pair.Valid 1 := empty.insertAll lengths
  have valid : (pair.insert [⟨3⟩]).2.Valid 1 := pairValid.insert rfl
  have lower : KeyRange.HasLength 1 { upper := .excluded [⟨2⟩] } :=
    (KeyRange.hasLength_unbounded 1).withUpper rfl
  have upper : KeyRange.HasLength 1 { lower := .included [⟨2⟩] } :=
    (KeyRange.hasLength_unbounded 1).withLower rfl (.included [⟨2⟩]) (.inl rfl)
  have run : Run ⟨0, 1⟩ ⟨pair, [.waiting (pair.all ⟨0, 1⟩)]⟩
      ⟨(pair.insert [⟨3⟩]).2, [.finished [[⟨1⟩]], .finished [[⟨2⟩], [⟨3⟩]]]⟩ :=
    (((Share.becomes_split splitEq [] []).tail (@Step.insert _ pair _ [⟨3⟩] rfl)).trans
      (Share.becomes_waiting (valid.reads_range lower) [] [_])).trans
        (Share.becomes_waiting (valid.reads_range upper) [_] [])
  exact ⟨_, run, rfl, delivers lengths rfl .all run⟩

/-- At the largest limit on copies both tuples are lost. -/
theorem delivers_largest :
    ¬ ∀ sharing, Run ⟨0xFFFFFFFFFFFFFFFF, 1⟩
        ⟨pair, [.waiting (pair.all ⟨0xFFFFFFFFFFFFFFFF, 1⟩)]⟩ sharing →
      (∀ share ∈ sharing.shares, ∃ read, share = .finished read) →
        ∀ entry ∈ pair.entriesIn {}, sharing.read.count entry.tuple = 1 := by
  intro delivered
  have nothing : pair.all ⟨0xFFFFFFFFFFFFFFFF, 1⟩ = .array [] := by decide +kernel
  have reads : (pair.all ⟨0xFFFFFFFFFFFFFFFF, 1⟩).cursor.Reads pair [] :=
    nothing ▸ Cursor.reads_array pair []
  have once := delivered _ (Share.becomes_waiting reads [] []) (by simp) ⟨[⟨1⟩], [⟨1⟩]⟩
    (by decide +kernel)
  simp [read, Share.read] at once

end Sharing

end Datalog
