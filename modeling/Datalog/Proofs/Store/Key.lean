import Datalog.Store.Index
import Mathlib.Tactic.Ring
import Mathlib.Tactic.Linarith

/-!
# Keys as numbers

A key of some length is a number written with one digit for each of its columns.  Among keys of the
same length the order of keys is the order of their numbers, so that facts about ranges of keys are
facts of arithmetic.
-/

namespace Datalog

/-- The number of different columns. -/
def Key.radix : Nat := UInt32.size

/-- The number that a key spells. -/
def Key.rank : Key → Nat
  | [] => 0
  | id :: key => id.raw.toNat * radix ^ key.length + Key.rank key

namespace Key

theorem toNat_lt_radix (id : TermId) : id.raw.toNat < radix :=
  id.raw.toNat_lt_size

theorem rank_lt (key : Key) : rank key < radix ^ key.length := by
  induction key with
  | nil => simp [rank]
  | cons id key ih =>
      have digit : id.raw.toNat + 1 ≤ radix := toNat_lt_radix id
      calc id.raw.toNat * radix ^ key.length + rank key
          < id.raw.toNat * radix ^ key.length + radix ^ key.length := by omega
        _ = (id.raw.toNat + 1) * radix ^ key.length := by ring
        _ ≤ radix * radix ^ key.length := Nat.mul_le_mul_right _ digit
        _ = radix ^ (key.length + 1) := by ring

theorem rank_append (front back : Key) :
    rank (front ++ back) = rank front * radix ^ back.length + rank back := by
  induction front with
  | nil => simp [rank]
  | cons id front ih =>
      simp only [List.cons_append, rank, ih, List.length_append, pow_add]
      ring

theorem ext_raw {first second : TermId} (same : first.raw.toNat = second.raw.toNat) :
    first = second := by
  cases first
  cases second
  simpa using UInt32.toNat_inj.mp same

theorem lt_iff_raw {first second : TermId} :
    first < second ↔ first.raw.toNat < second.raw.toNat :=
  Iff.rfl

/-- Two numbers compare digit by digit. -/
private theorem digits_lt_iff (high high' : Nat) {low low' width : Nat} (small : low < width)
    (small' : low' < width) :
    high * width + low < high' * width + low' ↔ high < high' ∨ high = high' ∧ low < low' := by
  rcases Nat.lt_trichotomy high high' with less | rfl | greater
  · have step : (high + 1) * width ≤ high' * width := Nat.mul_le_mul_right _ less
    rw [Nat.add_mul, Nat.one_mul] at step
    constructor
    · exact fun _ => .inl less
    · intro _
      omega
  · simp
  · have step : (high' + 1) * width ≤ high * width := Nat.mul_le_mul_right _ greater
    rw [Nat.add_mul, Nat.one_mul] at step
    constructor
    · intro bad
      omega
    · omega

/-- Keys of the same length are ordered as the numbers that they spell. -/
theorem lt_iff_rank_lt {first second : Key} (sameLength : first.length = second.length) :
    first < second ↔ rank first < rank second := by
  induction first generalizing second with
  | nil =>
      have : second = [] := List.length_eq_zero_iff.mp sameLength.symm
      simp [this, rank]
  | cons id first ih =>
      cases second with
      | nil => simp at sameLength
      | cons id' second =>
          have sameTail : first.length = second.length := by simpa using sameLength
          have small := rank_lt first
          rw [sameTail] at small
          rw [List.cons_lt_cons_iff, ih sameTail, lt_iff_raw, rank, rank, sameTail,
            digits_lt_iff _ _ small (rank_lt second)]
          constructor
          · rintro (less | ⟨rfl, less⟩)
            · exact .inl less
            · exact .inr ⟨rfl, less⟩
          · rintro (less | ⟨same, less⟩)
            · exact .inl less
            · exact .inr ⟨ext_raw same, less⟩

theorem lt_irrefl (key : Key) : ¬ key < key := by
  rw [lt_iff_rank_lt rfl]
  exact Nat.lt_irrefl _

theorem rank_injective {first second : Key} (sameLength : first.length = second.length)
    (sameRank : rank first = rank second) : first = second := by
  induction first generalizing second with
  | nil => exact (List.length_eq_zero_iff.mp sameLength.symm).symm
  | cons id first ih =>
      cases second with
      | nil => simp at sameLength
      | cons id' second =>
          have sameTail : first.length = second.length := by simpa using sameLength
          have small := rank_lt first
          have small' := rank_lt second
          rw [sameTail] at small
          rw [rank, rank, sameTail] at sameRank
          have notLess := mt (digits_lt_iff id.raw.toNat id'.raw.toNat small
            small').mpr (by omega)
          have notGreater := mt (digits_lt_iff id'.raw.toNat id.raw.toNat small'
            small).mpr (by omega)
          have sameDigit : id.raw.toNat = id'.raw.toNat := by omega
          have sameRest : rank first = rank second := by omega
          rw [ext_raw sameDigit, ih sameTail sameRest]

theorem rank_replicate_least (count : Nat) : rank (List.replicate count .least) = 0 := by
  induction count with
  | zero => rfl
  | succ count ih =>
      have digit : TermId.least.raw.toNat = 0 := rfl
      simp [List.replicate_succ, rank, ih, digit]

theorem rank_replicate_greatest (count : Nat) :
    rank (List.replicate count .greatest) + 1 = radix ^ count := by
  induction count with
  | zero => rfl
  | succ count ih =>
      have digit : TermId.greatest.raw.toNat + 1 = radix := by decide
      calc rank (List.replicate (count + 1) .greatest) + 1
          = TermId.greatest.raw.toNat * radix ^ count
              + (rank (List.replicate count .greatest) + 1) := by
            simp only [List.replicate_succ, rank, List.length_replicate]
            ring
        _ = (TermId.greatest.raw.toNat + 1) * radix ^ count := by
            rw [ih]
            ring
        _ = radix ^ (count + 1) := by
            rw [digit]
            ring

end Key

/-! ## Ranges -/

namespace KeyRange

/-- The ends of a range are keys of a given length. -/
def HasLength (length : Nat) (range : KeyRange) : Prop :=
  (∀ key, range.lower = .included key ∨ range.lower = .excluded key → key.length = length) ∧
    (∀ key, range.upper = .included key ∨ range.upper = .excluded key → key.length = length)

/-- Whether the number of a key is not below a lower end. -/
def RankAbove (rank : Nat) : KeyBound → Prop
  | .unbounded => True
  | .included bound => Key.rank bound ≤ rank
  | .excluded bound => Key.rank bound < rank

/-- Whether the number of a key is not above an upper end. -/
def RankBelow (rank : Nat) : KeyBound → Prop
  | .unbounded => True
  | .included bound => rank ≤ Key.rank bound
  | .excluded bound => rank < Key.rank bound

/-- A range holds the keys whose numbers lie between those of its ends. -/
theorem contains_iff {range : KeyRange} {key : Key} (hasLength : range.HasLength key.length) :
    range.contains key = true ↔
      RankAbove (Key.rank key) range.lower ∧ RankBelow (Key.rank key) range.upper := by
  obtain ⟨lowerLength, upperLength⟩ := hasLength
  obtain ⟨lower, upper⟩ := range
  simp only [contains, Bool.and_eq_true]
  refine and_congr ?_ ?_
  · cases lower with
    | unbounded => simp [isAbove, RankAbove]
    | included bound =>
        have := Key.lt_iff_rank_lt (lowerLength bound (.inl rfl)).symm
        simp [isAbove, RankAbove, this]
    | excluded bound =>
        have := Key.lt_iff_rank_lt (lowerLength bound (.inr rfl))
        simp [isAbove, RankAbove, this]
  · cases upper with
    | unbounded => simp [isBelow, RankBelow]
    | included bound =>
        have := Key.lt_iff_rank_lt (upperLength bound (.inl rfl))
        simp [isBelow, RankBelow, this]
    | excluded bound =>
        have := Key.lt_iff_rank_lt (upperLength bound (.inr rfl)).symm
        simp [isBelow, RankBelow, this]

theorem hasLength_unbounded (length : Nat) : HasLength length {} := by
  constructor <;> rintro key (same | same) <;> cases same

theorem hasLength_ofFront {front : Key} {length : Nat} (fits : front.length ≤ length) :
    (ofFront front length).HasLength length := by
  constructor <;> rintro key (same | same) <;> cases same <;> simp <;> omega

/-- The range of some first columns holds the keys that start with them. -/
theorem contains_ofFront {front key : Key} (fits : front.length ≤ key.length) :
    (ofFront front key.length).contains key = true ↔ front <+: key := by
  rw [contains_iff (hasLength_ofFront fits)]
  obtain ⟨head, tail, rfl, headLength⟩ : ∃ head tail, key = head ++ tail ∧
      head.length = front.length :=
    ⟨key.take front.length, key.drop front.length, (List.take_append_drop ..).symm, by simp [fits]⟩
  have tailLength : (head ++ tail).length - front.length = tail.length := by
    simp [headLength]
  have tailSmall := Key.rank_lt tail
  have top := Key.rank_replicate_greatest tail.length
  have prefixIff : front <+: head ++ tail ↔ Key.rank front = Key.rank head := by
    constructor
    · intro isPrefix
      have := List.prefix_of_prefix_length_le isPrefix (List.prefix_append head tail)
        headLength.ge
      rw [this.eq_of_length headLength.symm]
    · intro sameRank
      rw [Key.rank_injective headLength.symm sameRank]
      exact List.prefix_append head tail
  simp only [ofFront, RankAbove, RankBelow, Key.rank_append, tailLength,
    List.length_replicate, Key.rank_replicate_least]
  rw [prefixIff]
  constructor
  · rintro ⟨above, below⟩
    rcases Nat.lt_trichotomy (Key.rank front) (Key.rank head) with less | same | greater
    · have step := Nat.mul_le_mul_right (Key.radix ^ tail.length) (Nat.succ_le_of_lt less)
      rw [Nat.succ_mul] at step
      omega
    · exact same
    · have step := Nat.mul_le_mul_right (Key.radix ^ tail.length) (Nat.succ_le_of_lt greater)
      rw [Nat.succ_mul] at step
      omega
  · intro same
    rw [same]
    omega

end KeyRange

end Datalog
