import Mathlib.Data.Prod.Lex
import Mathlib.Data.List.Sort

/-! Records of `nonoblivious.c` and its three-valued `(key, orp_id)` comparators.

`key` and `orp_id` are `uint64_t`; the comparators only compare them, so they are
modelled as `ℕ`. The payload is opaque to every function of the sort: it is kept so
that records with equal `(key, orp_id)` stay distinct in permutation statements. -/
namespace DistributedSgxSort

/-- `elem_t`. -/
structure Elem where
  key : ℕ
  orpId : ℕ
  payload : ℕ
  deriving DecidableEq, Repr

/-- `struct sample`, the pivot broadcast by the quickselect master. -/
structure Sample where
  key : ℕ
  orpId : ℕ
  deriving DecidableEq, Repr

/-- The pivot taken from a record: `pivot.key = arr[left].key` and the same for `orp_id`. -/
def Elem.sample (e : Elem) : Sample := ⟨e.key, e.orpId⟩

/-- `(a > b) - (a < b)` on one field. -/
def compareField (a b : ℕ) : ℤ := (if b < a then 1 else 0) - (if a < b then 1 else 0)

/-- `mergesort_comparator`; `comp_key << 1` is written as `2 * comp_key`. -/
def mergesortComparator (a b : Elem) : ℤ :=
  2 * compareField a.key b.key + compareField a.orpId b.orpId

/-- `elem_sample_comparator`: the same formula against a pivot. -/
def elemSampleComparator (a : Elem) (b : Sample) : ℤ :=
  2 * compareField a.key b.key + compareField a.orpId b.orpId

/-- The lexicographic rank that both comparators decide. -/
def Sample.rank (s : Sample) : Lex (ℕ × ℕ) := toLex (s.key, s.orpId)

def Elem.rank (e : Elem) : Lex (ℕ × ℕ) := e.sample.rank

@[simp] theorem elemSampleComparator_sample (a e : Elem) :
    elemSampleComparator a e.sample = mergesortComparator a e := rfl

theorem compareField_eq (a b : ℕ) :
    compareField a b = if a < b then -1 else if a = b then 0 else 1 := by
  unfold compareField
  split_ifs <;> omega

private theorem comparator_pos_iff (a b c d : ℕ) :
    0 < 2 * compareField a c + compareField b d ↔ toLex (c, d) < toLex (a, b) := by
  simp only [Prod.Lex.lt_iff, compareField_eq]
  split_ifs <;> omega

private theorem comparator_neg_iff (a b c d : ℕ) :
    2 * compareField a c + compareField b d < 0 ↔ toLex (a, b) < toLex (c, d) := by
  simp only [Prod.Lex.lt_iff, compareField_eq]
  split_ifs <;> omega

theorem elemSampleComparator_pos_iff (a : Elem) (s : Sample) :
    0 < elemSampleComparator a s ↔ s.rank < a.rank :=
  comparator_pos_iff _ _ _ _

theorem elemSampleComparator_neg_iff (a : Elem) (s : Sample) :
    elemSampleComparator a s < 0 ↔ a.rank < s.rank :=
  comparator_neg_iff _ _ _ _

theorem mergesortComparator_neg_iff (a b : Elem) :
    mergesortComparator a b < 0 ↔ a.rank < b.rank :=
  comparator_neg_iff _ _ _ _

theorem mergesortComparator_nonpos_iff (a b : Elem) :
    mergesortComparator a b ≤ 0 ↔ a.rank ≤ b.rank := by
  rw [← not_lt, ← not_lt]
  exact not_congr (comparator_pos_iff _ _ _ _)

/-- "Non-decreasing under `mergesort_comparator`". -/
def Elem.Le (a b : Elem) : Prop := mergesortComparator a b ≤ 0

instance : DecidableRel Elem.Le := fun _ _ => inferInstanceAs (Decidable (_ ≤ _))

theorem Elem.le_iff (a b : Elem) : a.Le b ↔ a.rank ≤ b.rank :=
  mergesortComparator_nonpos_iff a b

instance : IsTrans Elem Elem.Le :=
  ⟨fun _ _ _ hab hbc => (Elem.le_iff _ _).2 (((Elem.le_iff _ _).1 hab).trans ((Elem.le_iff _ _).1 hbc))⟩

instance : IsTotal Elem Elem.Le :=
  ⟨fun a b => (le_total a.rank b.rank).imp (Elem.le_iff _ _).2 (Elem.le_iff _ _).2⟩

example : mergesortComparator ⟨3, 9, 0⟩ ⟨3, 4, 1⟩ = 1 ∧
    mergesortComparator ⟨2, 9, 0⟩ ⟨3, 4, 1⟩ = -1 := by decide

end DistributedSgxSort
