import DistributedSgxSort.MergesortCorrect
import DistributedSgxSort.Layout

/-! The local sort of `nonoblivious_sort` in `nonoblivious.c`. Worker `r` receives its share
of `src_local_length` records into the scratch buffer `buf = arr + local_length`, and then
sorts it from `buf` into `arr`. The host sizes `local_length` by ceiling division and the
enclave `src_local_length` by floor division. Where the share fits in `local_length` the
sort succeeds; where it is the larger of the two the output `[arr, arr + src_local_length)`
runs into `buf`. -/
namespace DistributedSgxSort

/-- `mergesort(buf, arr, src_local_length)` of `nonoblivious_sort` on worker `worldRank`,
with `buf = arr + local_length`. -/
def nonobliviousLocalSort (qsort : RunSort) (mallocOk : ℕ → ℕ → Bool) (errno : ℕ → ℕ → ℤ)
    (length worldSize worldRank arr : ℕ) (mem : ℕ → Elem) : Option (ℤ × (ℕ → Elem)) :=
  mergesort qsort mallocOk errno (arr + localLength length worldSize worldRank) arr
    (srcLocalLength length worldSize worldRank) mem

/-- Where the share fits in `local_length`, the local sort returns 0 and leaves in `arr` a
sorted permutation of the share received in `buf`. -/
theorem nonobliviousLocalSort_sorts (qsort : RunSort) (errno : ℕ → ℕ → ℤ) (N W r arr : ℕ)
    (mem : ℕ → Elem) (hle : srcLocalLength N W r ≤ localLength N W r) :
    ∃ mem', nonobliviousLocalSort qsort (fun _ _ => true) errno N W r arr mem = some (0, mem') ∧
      (readRange mem' arr (srcLocalLength N W r)).Perm
        (readRange mem (arr + localLength N W r) (srcLocalLength N W r)) ∧
      (readRange mem' arr (srcLocalLength N W r)).Sorted Elem.Le := by
  obtain ⟨hperm₁, hruns₁, -⟩ :=
    firstPass_spec qsort (arr + localLength N W r) (srcLocalLength N W r) mem
  obtain ⟨hret, hinput, hperm₂, hsort₂, -⟩ := mergePasses_spec errno _ _ bufSize _ arr _
    (by decide) (Nat.le_mul_of_pos_right _ (by decide)) (.inr (by omega)) hruns₁
  obtain ⟨mem', h, hout, -⟩ := mergesort_out (.inr (by omega)) rfl hret hinput
  exact ⟨mem', h, hout ▸ hperm₂.trans hperm₁, hout ▸ hsort₂⟩

/-- A share of at most one buffer that is larger than the worker's input overlaps the
scratch buffer: the first pass sorts it in place in `buf`, no merge pass runs, and the final
`memcpy(arr, buf, …)` copies between overlapping regions, which is undefined. -/
theorem nonobliviousLocalSort_eq_none {qsort : RunSort} {mallocOk : ℕ → ℕ → Bool} {errno : ℕ → ℕ → ℤ}
    {N W r arr : ℕ} {mem : ℕ → Elem} (hpos : 0 < localLength N W r)
    (hlt : localLength N W r < srcLocalLength N W r) (hbuf : srcLocalLength N W r ≤ bufSize) :
    nonobliviousLocalSort qsort mallocOk errno N W r arr mem = none := by
  unfold nonobliviousLocalSort
  generalize localLength N W r = l at *
  obtain ⟨k, hk⟩ : ∃ k, srcLocalLength N W r = k + 1 := ⟨srcLocalLength N W r - 1, by omega⟩
  rw [hk] at hlt hbuf ⊢
  simp only [mergesort, mergePasses, show ¬bufSize < k + 1 by omega, if_false]
  simp [memcpy]
  rw [if_neg (by omega), if_neg (by omega)]

/-- Three records over two workers: worker 1 holds one record and receives two, and its
local sort is undefined, whatever the records and the allocator. -/
theorem nonobliviousLocalSort_three_two (qsort : RunSort) (mallocOk : ℕ → ℕ → Bool)
    (errno : ℕ → ℕ → ℤ) (arr : ℕ) (mem : ℕ → Elem) :
    nonobliviousLocalSort qsort mallocOk errno 3 2 1 arr mem = none :=
  nonobliviousLocalSort_eq_none (by decide) (by decide) (by decide)

end DistributedSgxSort
