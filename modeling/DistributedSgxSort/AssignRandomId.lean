import DistributedSgxSort.Mergesort

/-! The random ORP IDs of `orshuffle_sort`. After the shuffle, an iter-task of `num_threads`
shards runs `assign_random_id`: shard `i` draws a fresh `orp_id` with `rand_read` for each
record of `[i * length / num_threads, (i + 1) * length / num_threads)`, and on a failed draw
publishes its status in `args->ret` with a compare-exchange from 0, so the first error wins.

`rand_read` is a stream: its `k`-th call returns a status and, when the status is 0, the
value it drew. A failed call writes nothing. `start_idx` only enters the error message. -/
namespace DistributedSgxSort

/-- The fields of `struct assign_random_id_args` other than `ret`. -/
structure AssignRandomIdArgs where
  arr : ℕ
  length : ℕ
  startIdx : ℕ
  numThreads : ℕ

/-- The records, the number of `rand_read` calls so far, and `args->ret`. -/
structure AssignState where
  mem : ℕ → Elem
  draws : ℕ
  ret : ℤ

/-- `arr[j].orp_id` set to `v`. -/
def setOrpId (mem : ℕ → Elem) (p v : ℕ) : ℕ → Elem :=
  Function.update mem p { mem p with orpId := v }

/-- `count` iterations of `for (size_t j = start; j < end; j++)` from `j`, the `k`-th draw
next: the records, the draws made, and `ret` (0 when every draw succeeded). -/
def assignLoop (randRead : ℕ → ℤ × ℕ) (arr : ℕ) : ℕ → ℕ → (ℕ → Elem) → ℕ → (ℕ → Elem) × ℕ × ℤ
  | _, 0, mem, k => (mem, k, 0)
  | j, count + 1, mem, k =>
    if (randRead k).1 ≠ 0 then (mem, k + 1, (randRead k).1)
    else assignLoop randRead arr (j + 1) count (setOrpId mem (arr + j) (randRead k).2) (k + 1)

/-- `assign_random_id(args, i)`. -/
def assignRandomId (randRead : ℕ → ℤ × ℕ) (args : AssignRandomIdArgs) (st : AssignState)
    (i : ℕ) : AssignState :=
  let start := i * args.length / args.numThreads
  let r := assignLoop randRead args.arr start ((i + 1) * args.length / args.numThreads - start)
    st.mem st.draws
  ⟨r.1, r.2.1, if r.2.2 ≠ 0 ∧ st.ret = 0 then r.2.2 else st.ret⟩

/-- The arguments `orshuffle_sort` gives the task: `.length = 0` and `.start_idx = length`. -/
def orshuffleAssignArgs (arr length numThreads : ℕ) : AssignRandomIdArgs :=
  ⟨arr, 0, length, numThreads⟩

/-- Once a shard has published an error, later shards leave it. -/
theorem foldl_assignRandomId_ret (randRead : ℕ → ℤ × ℕ) (args : AssignRandomIdArgs) :
    ∀ (order : List ℕ) {st : AssignState}, st.ret ≠ 0 →
      (order.foldl (assignRandomId randRead args) st).ret = st.ret
  | [], _, _ => rfl
  | i :: order, st, h => by
    have h' : (assignRandomId randRead args st i).ret = st.ret := by
      simp [assignRandomId, h]
    rw [List.foldl_cons, foldl_assignRandomId_ret randRead args order (h'.symm ▸ h), h']

/-- With `.length = 0`, every shard's range `[i * 0 / T, (i + 1) * 0 / T)` is empty: in any
order of the shards, the task calls `rand_read` no time and leaves every record, its
`orp_id` included, as it was. -/
theorem orshuffle_assign_writes_nothing (randRead : ℕ → ℤ × ℕ) (arr length numThreads : ℕ)
    (mem : ℕ → Elem) (draws : ℕ) (order : List ℕ) :
    order.foldl (assignRandomId randRead (orshuffleAssignArgs arr length numThreads))
      ⟨mem, draws, 0⟩ = ⟨mem, draws, 0⟩ :=
  List.foldl_fixed' (fun _ => by simp [assignRandomId, orshuffleAssignArgs, assignLoop]) order

/-! ### With the record count as `.length`

Given `.length = length`, the shard ranges tile `[0, length)`: the task draws one `orp_id`
for each record, the `j`-th draw for record `j` when the shards run in index order. -/

section Tiling

variable {randRead : ℕ → ℤ × ℕ} (hok : ∀ k, (randRead k).1 = 0)
include hok

theorem assignLoop_ok (arr : ℕ) :
    ∀ (j count : ℕ) (mem : ℕ → Elem) (k : ℕ),
      (assignLoop randRead arr j count mem k).2 = (k + count, 0) ∧
      ∀ p, (assignLoop randRead arr j count mem k).1 p =
        if arr + j ≤ p ∧ p < arr + j + count then
          { mem p with orpId := (randRead (k + (p - (arr + j)))).2 } else mem p
  | j, 0, mem, k => ⟨rfl, fun p => by rw [if_neg (by omega)]; rfl⟩
  | j, count + 1, mem, k => by
    obtain ⟨h₁, h₂⟩ := assignLoop_ok arr (j + 1) count (setOrpId mem (arr + j) (randRead k).2) (k + 1)
    simp only [assignLoop, hok, ne_eq, not_true_eq_false, if_false]
    refine ⟨by rw [h₁]; congr 1; omega, fun p => ?_⟩
    rw [h₂, setOrpId]
    by_cases hp : p = arr + j
    · subst hp
      simp
    · rw [Function.update_noteq hp]
      by_cases hin : arr + j ≤ p ∧ p < arr + j + (count + 1)
      · rw [if_pos (by omega), if_pos hin,
          show k + 1 + (p - (arr + (j + 1))) = k + (p - (arr + j)) by omega]
      · rw [if_neg (by omega), if_neg hin]

/-- After the first `i` shards in index order, the records of `[0, i * length / T)` hold the
draws `0, 1, …` in order. -/
theorem iterTask_assignRandomId (arr length startIdx T : ℕ) (mem : ℕ → Elem) (draws : ℕ) :
    ∀ i, iterTask (assignRandomId randRead ⟨arr, length, startIdx, T⟩) i ⟨mem, draws, 0⟩ =
      ⟨fun p => if arr ≤ p ∧ p < arr + i * length / T then
        { mem p with orpId := (randRead (draws + (p - arr))).2 } else mem p,
        draws + i * length / T, 0⟩
  | 0 => by
    simp only [iterTask_zero, Nat.zero_mul, Nat.zero_div, Nat.add_zero, AssignState.mk.injEq,
      and_true]
    funext p
    rw [if_neg (by omega)]
  | i + 1 => by
    have hmono : i * length / T ≤ (i + 1) * length / T :=
      Nat.div_le_div_right (Nat.mul_le_mul_right _ (Nat.le_succ i))
    obtain ⟨h₁, h₂⟩ := assignLoop_ok hok arr (i * length / T)
      ((i + 1) * length / T - i * length / T)
      (fun p => if arr ≤ p ∧ p < arr + i * length / T then
        { mem p with orpId := (randRead (draws + (p - arr))).2 } else mem p)
      (draws + i * length / T)
    rw [iterTask_succ, iterTask_assignRandomId arr length startIdx T mem draws i]
    simp only [assignRandomId, h₁, ne_eq, not_true_eq_false, false_and, if_false,
      AssignState.mk.injEq, and_true]
    refine ⟨funext fun p => ?_, by omega⟩
    rw [h₂]
    generalize i * length / T = a at hmono ⊢
    generalize (i + 1) * length / T = b at hmono ⊢
    by_cases hin : arr + a ≤ p ∧ p < arr + a + (b - a)
    · rw [if_pos hin, if_neg (by omega), if_pos (by omega),
        show draws + a + (p - (arr + a)) = draws + (p - arr) by omega]
    · rw [if_neg hin]
      by_cases hp : arr ≤ p ∧ p < arr + a
      · rw [if_pos hp, if_pos (by omega)]
      · rw [if_neg hp, if_neg (by omega)]

/-- With `.length = length`, `T ≥ 1` shards in index order give each record of
`arr[0 .. length)` exactly one fresh `orp_id`, the `j`-th draw to record `j`, make exactly
`length` draws, and change nothing else. -/
theorem assignRandomId_each_record_once {T : ℕ} (hT : 0 < T) (arr length startIdx : ℕ)
    (mem : ℕ → Elem) (draws : ℕ) :
    iterTask (assignRandomId randRead ⟨arr, length, startIdx, T⟩) T ⟨mem, draws, 0⟩ =
      ⟨fun p => if arr ≤ p ∧ p < arr + length then
        { mem p with orpId := (randRead (draws + (p - arr))).2 } else mem p, draws + length, 0⟩ := by
  rw [iterTask_assignRandomId hok, Nat.mul_div_cancel_left length hT]

end Tiling

theorem assignRandomId_each_record_once_two_shards :
    (∀ k, ((fun k => ((0 : ℤ), k + 5)) k).1 = 0) ∧ 0 < 2 ∧
    iterTask (assignRandomId (fun k => (0, k + 5)) ⟨0, 3, 0, 2⟩) 2 ⟨fun _ => ⟨0, 0, 0⟩, 0, 0⟩ =
      ⟨fun p => if 0 ≤ p ∧ p < 0 + 3 then { (⟨0, 0, 0⟩ : Elem) with orpId := 0 + (p - 0) + 5 }
        else ⟨0, 0, 0⟩, 0 + 3, 0⟩ :=
  ⟨fun _ => rfl, by decide,
    assignRandomId_each_record_once (fun _ => rfl) (by decide) 0 3 0 (fun _ => ⟨0, 0, 0⟩) 0⟩

end DistributedSgxSort
