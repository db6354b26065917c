import Mathlib.Algebra.BigOperators.Group.Finset
import Mathlib.Algebra.Order.Group.Nat

/-! Worker shares of a length-`N` array over `W` workers.

The host (`main` in `parallel.c`) lays the input out by ceiling division. The enclave
(`distributed_sample_partition`, `nonoblivious_sort`) computes the share that worker `r`
receives, and then sorts, by floor division. Sizes are `size_t`; the products `N * r` are
taken without wrap-around. -/
namespace DistributedSgxSort

/-- `local_start` in `main` of `parallel.c`. -/
def localStart (length worldSize worldRank : ℕ) : ℕ :=
  (worldRank * length + worldSize - 1) / worldSize

/-- `local_length` in `main` of `parallel.c`. -/
def localLength (length worldSize worldRank : ℕ) : ℕ :=
  ((worldRank + 1) * length + worldSize - 1) / worldSize
    - (worldRank * length + worldSize - 1) / worldSize

/-- `src_local_start` of `distributed_sample_partition` and `nonoblivious_sort`; also the
quickselect target `sample_targets[r - 1] = total_length * r / world_size`. -/
def srcLocalStart (totalLength worldSize worldRank : ℕ) : ℕ :=
  totalLength * worldRank / worldSize

/-- `src_local_length`: the share that worker `worldRank` receives and sorts. -/
def srcLocalLength (totalLength worldSize worldRank : ℕ) : ℕ :=
  totalLength * (worldRank + 1) / worldSize - srcLocalStart totalLength worldSize worldRank

variable {N W : ℕ}

theorem srcLocalStart_mono : Monotone (srcLocalStart N W) :=
  fun _ _ h => Nat.div_le_div_right (Nat.mul_le_mul_left N h)

theorem localStart_mono : Monotone (localStart N W) :=
  fun _ _ h => Nat.div_le_div_right (Nat.sub_le_sub_right (Nat.add_le_add_right
    (Nat.mul_le_mul_right N h) _) _)

theorem localLength_eq (r : ℕ) : localLength N W r = localStart N W (r + 1) - localStart N W r :=
  rfl

theorem srcLocalStart_last (hW : 0 < W) : srcLocalStart N W W = N :=
  Nat.mul_div_cancel N hW

theorem localStart_last (hW : 0 < W) : localStart N W W = N := by
  unfold localStart
  rw [show W * N + W - 1 = (W - 1) + W * N by omega, Nat.add_mul_div_left _ _ hW,
    Nat.div_eq_of_lt (by omega), Nat.zero_add]

/-- The receiving shares partition the `N` records. -/
theorem sum_srcLocalLength (hW : 0 < W) :
    ∑ r ∈ Finset.range W, srcLocalLength N W r = N := by
  rw [show (fun r => srcLocalLength N W r) = fun r => srcLocalStart N W (r + 1) - srcLocalStart N W r
    from rfl, Finset.sum_range_tsub srcLocalStart_mono, srcLocalStart_last hW]
  simp [srcLocalStart]

/-- With `N = 3` records on `W = 2` workers, worker 1 is given one record by the host but
receives two in the sample partition. -/
theorem srcLocalLength_three_two : localLength 3 2 1 = 1 ∧ srcLocalLength 3 2 1 = 2 := by
  decide

end DistributedSgxSort
