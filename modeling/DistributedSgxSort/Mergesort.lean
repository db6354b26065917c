import DistributedSgxSort.Elem
import DistributedSgxSort.Memory

/-! The external merge sort of `nonoblivious.c`: `mergesort_first_pass`, `mergesort_pass`
and `mergesort`.

`qsort` is libc's; any function that returns a sorted permutation of its run will do, and
a `RunSort` bundles one with those two facts. An iter-task runs its shards in index order.
The `malloc` of the merge cursors of shard `run_idx` in the pass of run length `r` fails
when `mallocOk r run_idx` is false, and `errno r run_idx` is then the `errno` that `perror`
leaves. Loop bounds that the code does not have are fuel arguments, large enough that they
never run out. -/
namespace DistributedSgxSort

/-- `BUF_SIZE`. -/
def bufSize : ℕ := 1024

/-- `CEIL_DIV`. -/
def ceilDiv (a b : ℕ) : ℕ := (a + b - 1) / b

/-- The `qsort` of `mergesort_first_pass`: a sort under `mergesort_comparator`. -/
structure RunSort where
  sort : List Elem → List Elem
  perm : ∀ l, (sort l).Perm l
  sorted : ∀ l, (sort l).Sorted Elem.Le

/-- Insertion sort is one `RunSort`. -/
def RunSort.insertion : RunSort :=
  ⟨List.insertionSort Elem.Le, List.perm_insertionSort _, List.sorted_insertionSort _⟩

/-- Shards `0 .. count - 1` of an iter-task. -/
def iterTask {σ : Type*} (f : σ → ℕ → σ) (count : ℕ) (s : σ) : σ :=
  (List.range count).foldl f s

@[simp] theorem iterTask_zero {σ : Type*} (f : σ → ℕ → σ) (s : σ) : iterTask f 0 s = s := rfl

theorem iterTask_succ {σ : Type*} (f : σ → ℕ → σ) (count : ℕ) (s : σ) :
    iterTask f (count + 1) s = f (iterTask f count s) count := by
  simp [iterTask, List.range_succ]

theorem le_ceilDiv_mul (a : ℕ) {b : ℕ} (hb : 0 < b) : a ≤ ceilDiv a b * b := by
  have := Nat.div_add_mod (a + b - 1) b
  have := Nat.mod_lt (a + b - 1) hb
  rw [ceilDiv, Nat.mul_comm]
  omega

/-- `mergesort_first_pass(&{arr, length}, run_idx)`. -/
def mergesortFirstPass (qsort : RunSort) (arr length : ℕ) (mem : ℕ → Elem) (runIdx : ℕ) :
    ℕ → Elem :=
  let runStart := runIdx * bufSize
  let runLength := min (length - runStart) bufSize
  writeRange mem (arr + runStart) (qsort.sort (readRange mem (arr + runStart) runLength))

/-- The fields of `struct mergesort_pass_args` other than `ret`. -/
structure MergesortPassArgs where
  input : ℕ
  output : ℕ
  length : ℕ
  runLength : ℕ

/-- The scan of `mergesort_pass` over runs `0 .. j - 1`: `(lowest_run, lowest_idx)`, or
`none` while `all_done`. -/
def scanLowest (mem : ℕ → Elem) (args : MergesortPassArgs) (runStart : ℕ)
    (mergeIndices : ℕ → ℕ) : ℕ → Option (ℕ × ℕ)
  | 0 => none
  | j + 1 =>
    let lowest := scanLowest mem args runStart mergeIndices j
    let runIdx := j * args.runLength + mergeIndices j
    if args.runLength ≤ mergeIndices j ∨ args.length ≤ runStart + runIdx then lowest
    else
      match lowest with
      | none => some (j, runIdx)
      | some (_, lowestIdx) =>
        if mergesortComparator (mem (args.input + (runStart + runIdx)))
            (mem (args.input + (runStart + lowestIdx))) < 0 then some (j, runIdx)
        else lowest

/-- The `do { … } while (!all_done)` loop of `mergesort_pass`, for at most `fuel` rounds. -/
def mergeLoop (args : MergesortPassArgs) (runStart numRuns : ℕ) :
    ℕ → (ℕ → ℕ) → ℕ → (ℕ → Elem) → ℕ → Elem
  | 0, _, _, mem => mem
  | fuel + 1, mergeIndices, outputIdx, mem =>
    match scanLowest mem args runStart mergeIndices numRuns with
    | none => mem
    | some (lowestRun, lowestIdx) =>
      mergeLoop args runStart numRuns fuel
        (Function.update mergeIndices lowestRun (mergeIndices lowestRun + 1)) (outputIdx + 1)
        (Function.update mem (args.output + (runStart + outputIdx))
          (mem (args.input + (runStart + lowestIdx))))

/-- `mergesort_pass(args, run_idx)` on the memory and `args->ret`. On a failed `malloc`,
`ret = errno` and then, if `ret` is nonzero, `__atomic_compare_exchange_n(&args->ret, &ret,
0, …)`. -/
def mergesortPass (mallocOk : ℕ → ℕ → Bool) (errno : ℕ → ℕ → ℤ) (args : MergesortPassArgs)
    (st : (ℕ → Elem) × ℤ) (runIdx : ℕ) : (ℕ → Elem) × ℤ :=
  let runStart := runIdx * args.runLength * bufSize
  let numRuns := min (ceilDiv (args.length - runStart) args.runLength) bufSize
  if mallocOk args.runLength runIdx then
    (mergeLoop args runStart numRuns (args.length + 1) (fun _ => 0) 0 st.1, st.2)
  else
    let ret := errno args.runLength runIdx
    (st.1, if ret ≠ 0 ∧ st.2 = ret then 0 else st.2)

/-- The merge loop of `mergesort` from `run_length` on, with buffers `input` and `output`,
for at most `fuel` passes: `ret`, the final `input`, and the memory. -/
def mergePasses (mallocOk : ℕ → ℕ → Bool) (errno : ℕ → ℕ → ℤ) (length : ℕ) :
    ℕ → ℕ → ℕ → ℕ → (ℕ → Elem) → ℤ × ℕ × (ℕ → Elem)
  | 0, _, input, _, mem => (0, input, mem)
  | fuel + 1, runLength, input, output, mem =>
    if runLength < length then
      let st := iterTask (mergesortPass mallocOk errno ⟨input, output, length, runLength⟩)
        (ceilDiv length (runLength * bufSize)) (mem, 0)
      if st.2 ≠ 0 then (st.2, input, st.1)
      else mergePasses mallocOk errno length fuel (runLength * bufSize) output input st.1
    else (0, input, mem)

/-- `mergesort(arr, out, length)`: the status and the memory, or `none` where the code's
behaviour is undefined. -/
def mergesort (qsort : RunSort) (mallocOk : ℕ → ℕ → Bool) (errno : ℕ → ℕ → ℤ)
    (arr out length : ℕ) (mem : ℕ → Elem) : Option (ℤ × (ℕ → Elem)) :=
  let mem := iterTask (mergesortFirstPass qsort arr length) (ceilDiv length bufSize) mem
  let (ret, input, mem) := mergePasses mallocOk errno length length bufSize arr out mem
  if ret ≠ 0 then some (ret, mem)
  else if input ≠ out then (memcpy mem out input length).map ((0 : ℤ), ·)
  else some (0, mem)

end DistributedSgxSort
