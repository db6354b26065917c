import Mathlib.Data.List.Perm.Basic

/-! Flat memory. An `elem_t *` is an index into one map of records, an array of
`length` records at `base` is the region `[base, base + length)`, and `memcpy` is
undefined on overlapping regions (C11 7.24.2.1), modelled as `none`. -/
namespace DistributedSgxSort

variable {α : Type*}

/-- The records of `[base, base + length)`. -/
def readRange (mem : ℕ → α) (base length : ℕ) : List α :=
  (List.range length).map fun i => mem (base + i)

/-- Memory after writing `l` to `[base, base + l.length)`. -/
def writeRange (mem : ℕ → α) (base : ℕ) (l : List α) : ℕ → α :=
  fun p => if base ≤ p then l[p - base]?.getD (mem p) else mem p

/-- `memcpy(dst, src, length * sizeof(*dst))`. -/
def memcpy (mem : ℕ → α) (dst src length : ℕ) : Option (ℕ → α) :=
  if dst + length ≤ src ∨ src + length ≤ dst then
    some (writeRange mem dst (readRange mem src length))
  else none

@[simp] theorem length_readRange (mem : ℕ → α) (base length : ℕ) :
    (readRange mem base length).length = length := by
  simp [readRange]

@[simp] theorem readRange_zero (mem : ℕ → α) (base : ℕ) : readRange mem base 0 = [] := rfl

@[simp] theorem getElem_readRange (mem : ℕ → α) (base length i : ℕ)
    (h : i < (readRange mem base length).length) :
    (readRange mem base length)[i] = mem (base + i) := by
  simp [readRange]

theorem readRange_add (mem : ℕ → α) (base a b : ℕ) :
    readRange mem base (a + b) = readRange mem base a ++ readRange mem (base + a) b := by
  simp [readRange, List.range_add, Function.comp_def, Nat.add_assoc]

theorem readRange_succ (mem : ℕ → α) (base a : ℕ) :
    readRange mem base (a + 1) = readRange mem base a ++ [mem (base + a)] := by
  simp [readRange, List.range_succ]

theorem readRange_cons (mem : ℕ → α) (base a : ℕ) :
    readRange mem base (a + 1) = mem base :: readRange mem (base + 1) a := by
  simp [readRange, List.range_succ_eq_map, Nat.add_comm, Nat.add_left_comm]

theorem readRange_drop (mem : ℕ → α) (base a b : ℕ) :
    (readRange mem base (a + b)).drop a = readRange mem (base + a) b := by
  rw [readRange_add, List.drop_left' (length_readRange mem base a)]

theorem readRange_congr {mem mem' : ℕ → α} {base length : ℕ}
    (h : ∀ i < length, mem (base + i) = mem' (base + i)) :
    readRange mem base length = readRange mem' base length :=
  List.map_congr_left fun i hi => h i (List.mem_range.1 hi)

theorem writeRange_apply_of_lt (mem : ℕ → α) (base : ℕ) (l : List α) {i : ℕ} (hi : i < l.length) :
    writeRange mem base l (base + i) = l[i] := by
  simp [writeRange, hi]

theorem writeRange_apply_of_not_mem (mem : ℕ → α) (base : ℕ) (l : List α) {p : ℕ}
    (hp : p < base ∨ base + l.length ≤ p) : writeRange mem base l p = mem p := by
  unfold writeRange
  split_ifs with h
  · rw [List.getElem?_eq_none (by omega), Option.getD_none]
  · rfl

theorem readRange_writeRange (mem : ℕ → α) (base : ℕ) (l : List α) :
    readRange (writeRange mem base l) base l.length = l :=
  List.ext_getElem (by simp) fun i h _ => by
    simp only [getElem_readRange]; exact writeRange_apply_of_lt mem base l (by simpa using h)

theorem readRange_update_end (mem : ℕ → α) (base a : ℕ) (v : α) :
    readRange (Function.update mem (base + a) v) base (a + 1) = readRange mem base a ++ [v] := by
  rw [readRange_succ, Function.update_same,
    readRange_congr fun i hi => Function.update_noteq (by omega) v mem]

/-- A region is the concatenation of its blocks of `size` records, the last one truncated. -/
theorem flatMap_readRange_blocks (mem : ℕ → α) (base size length k : ℕ) :
    (List.range k).flatMap (fun j => readRange mem (base + j * size) (min size (length - j * size))) =
      readRange mem base (min length (k * size)) := by
  induction k with
  | zero => simp [readRange]
  | succ k ih =>
    rw [List.range_succ, List.flatMap_append, ih, Nat.succ_mul]
    rcases le_or_lt (k * size) length with h | h
    · rw [min_eq_right h, List.flatMap_singleton, ← readRange_add]
      congr 1
      omega
    · have e : min size (length - k * size) = 0 := by omega
      rw [List.flatMap_singleton, e, min_eq_left (by omega : length ≤ k * size + size),
        min_eq_left h.le]
      simp [readRange]

end DistributedSgxSort
