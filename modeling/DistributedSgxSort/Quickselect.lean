import DistributedSgxSort.Elem
import DistributedSgxSort.Network
import Mathlib.Logic.Equiv.Basic
import Mathlib.Algebra.Order.BigOperators.Group.Finset

/-! `distributed_quickselect_helper` of `nonoblivious.c` as one worker's program on
`QUICKSELECT_MPI_TAG`, and the synchronous-round model: in each round all workers elect
the lowest ready worker as master, partition their windows around its pivot, and learn the
pivot's global rank `cur_pivot`. Recursion depth is bounded by a fuel argument; running out
of fuel leaves the modelled behaviour. -/
namespace DistributedSgxSort

/-- The messages of the quickselect tag: a ready flag, a pivot, or a `size_t` (a partition
size or `cur_pivot`). -/
inductive QsMsg
  | ready (b : Bool)
  | pivot (p : Sample)
  | size (n : ℕ)

/-- Reading a ready flag. -/
def QsMsg.getReady : QsMsg → Option Bool
  | .ready b => some b
  | _ => none

/-- Reading a pivot. -/
def QsMsg.getPivot : QsMsg → Option Sample
  | .pivot p => some p
  | _ => none

/-- Reading a `size_t`. -/
def QsMsg.getSize : QsMsg → Option ℕ
  | .size n => some n
  | _ => none

/-- The data of one worker that quickselect reads and writes: its records `arr`, and the
output arrays `samples` and `sample_idxs`, indexed by target. -/
structure QsState where
  arr : ℕ → Elem
  samples : ℕ → Sample
  sampleIdxs : ℕ → ℕ

/-- `PARTITION_SCAN_LEFT` and `PARTITION_SCAN_RIGHT`. -/
inductive PartitionState
  | scanLeft
  | scanRight

/-- The `while (partition_left < partition_right)` loop, for at most `fuel` iterations:
the array, `partition_left` and `partition_right`. -/
def partitionLoop (pivot : Sample) :
    ℕ → (ℕ → Elem) → ℕ → ℕ → PartitionState → (ℕ → Elem) × ℕ × ℕ
  | 0, arr, pl, pr, _ => (arr, pl, pr)
  | fuel + 1, arr, pl, pr, st =>
    if pl < pr then
      match st with
      | .scanLeft =>
        if 0 < elemSampleComparator (arr pl) pivot then partitionLoop pivot fuel arr pl pr .scanRight
        else partitionLoop pivot fuel arr (pl + 1) pr .scanLeft
      | .scanRight =>
        if elemSampleComparator (arr (pr - 1)) pivot < 0 then
          partitionLoop pivot fuel (arr ∘ Equiv.swap (pr - 1) pl) (pl + 1) (pr - 1) .scanLeft
        else partitionLoop pivot fuel arr pl (pr - 1) .scanRight
    else (arr, pl, pr)

/-- The partition of the window `[left, right)` around `pivot`, the master skipping its
pivot at `left` and swapping it to the boundary afterwards: the array, `partition_left`
and `partition_right`. Each iteration of the loop moves a cursor or changes the scan
direction, so `2 (right - left) + 1` iterations finish it. -/
def partitionWindow (arr : ℕ → Elem) (left right : ℕ) (isMaster : Bool) (pivot : Sample) :
    (ℕ → Elem) × ℕ × ℕ :=
  let r := partitionLoop pivot (2 * (right - left) + 1) arr (left + isMaster.toNat) right .scanLeft
  if isMaster then (r.1 ∘ Equiv.swap (r.2.2 - 1) left, r.2.1, r.2.2 - 1) else r

/-- The partition loop only moves `partition_left` up and `partition_right` down. -/
theorem partitionLoop_bounds (pivot : Sample) (fuel : ℕ) (arr : ℕ → Elem) (pl pr : ℕ)
    (st : PartitionState) :
    pl ≤ (partitionLoop pivot fuel arr pl pr st).2.1 ∧ (partitionLoop pivot fuel arr pl pr st).2.2 ≤ pr := by
  induction fuel generalizing arr pl pr st with
  | zero => exact ⟨le_rfl, le_rfl⟩
  | succ fuel ih =>
    unfold partitionLoop
    by_cases h : pl < pr
    · rw [if_pos h]
      cases st with
      | scanLeft =>
        dsimp only
        split_ifs
        · exact ih arr pl pr .scanRight
        · have := ih arr (pl + 1) pr .scanLeft
          exact ⟨by omega, this.2⟩
      | scanRight =>
        dsimp only
        split_ifs
        · have := ih (arr ∘ Equiv.swap (pr - 1) pl) (pl + 1) (pr - 1) .scanLeft
          exact ⟨by omega, by omega⟩
        · have := ih arr pl (pr - 1) .scanRight
          exact ⟨this.1, by omega⟩
    · rw [if_neg h]
      exact ⟨le_rfl, le_rfl⟩

/-- Both windows a partition leaves, `[left, partition_right)` and `[partition_left, right)`,
are no larger than `[left, right)`, and the master's are smaller: its pivot is in neither. -/
theorem partitionWindow_shrink (arr : ℕ → Elem) (left right : ℕ) (isMaster : Bool)
    (pivot : Sample) (h : isMaster = true → left < right) :
    (partitionWindow arr left right isMaster pivot).2.2 - left + isMaster.toNat ≤ right - left ∧
      right - (partitionWindow arr left right isMaster pivot).2.1 + isMaster.toNat ≤
        right - left := by
  have hb := partitionLoop_bounds pivot (2 * (right - left) + 1) arr (left + isMaster.toNat) right
    .scanLeft
  cases isMaster with
  | false =>
    simp only [partitionWindow, Bool.toNat_false, Bool.false_eq_true, if_false, Nat.add_zero] at hb ⊢
    omega
  | true =>
    have hlt := h rfl
    simp only [partitionWindow, Bool.toNat_true, if_true] at hb ⊢
    omega

/-- `if (is_ready && (master_rank == -1 || i < master_rank)) master_rank = i;`, with
`none` for `-1`. -/
def electMaster (master : Option ℕ) (i : ℕ) (isReady : Bool) : Option ℕ :=
  match master with
  | none => if isReady then some i else none
  | some m => if isReady ∧ i < m then some i else some m

/-- The election loop: the lowest worker whose window `[left, right)` is non-empty. -/
def electRound (W : ℕ) (left right : ℕ → ℕ) : Option ℕ :=
  (List.range W).foldl (fun m i => electMaster m i (decide (left i < right i))) none

theorem electMaster_eq_some {acc : Option ℕ} {i m : ℕ} {b : Bool}
    (h : electMaster acc i b = some m) : m = i ∧ b = true ∨ acc = some m := by
  unfold electMaster at h
  split at h <;> split_ifs at h <;> simp_all

/-- The elected master is a worker that reported itself ready. -/
theorem electMaster_foldl_spec {P : ℕ → Prop} {ready : ℕ → Bool} {acc : Option ℕ}
    (hacc : ∀ m, acc = some m → P m) (is : List ℕ) (his : ∀ i ∈ is, ready i = true → P i)
    {m : ℕ} (h : is.foldl (fun a i => electMaster a i (ready i)) acc = some m) : P m := by
  induction is generalizing acc with
  | nil => exact hacc m h
  | cons i is ih =>
    refine ih (fun m' hm' => ?_) (fun j hj => his j (List.mem_cons_of_mem _ hj)) h
    rcases electMaster_eq_some hm' with ⟨rfl, hr⟩ | h'
    · exact his _ (List.mem_cons_self _ _) hr
    · exact hacc m' h'

theorem electRound_spec {W : ℕ} {left right : ℕ → ℕ} {m : ℕ} (h : electRound W left right = some m) :
    m < W ∧ left m < right m :=
  @electMaster_foldl_spec (fun m => m < W ∧ left m < right m) _ none (fun _ h => by cases h) _
    (fun i hi hr => ⟨List.mem_range.1 hi, of_decide_eq_true hr⟩) m h

/-- Modelled from the spec: `bsearch_ge`, absent from the sources, the binary search of
the target dispatch: the index of the first of the `num` sorted targets at `targets + tOff`
that is at least `key`, or `num` if there is none. -/
def bsearchGe (key : ℕ) (targets : ℕ → ℕ) (tOff num : ℕ) : ℕ :=
  ((List.range num).map fun i => targets (tOff + i)).findIdx (key ≤ ·)

/-- `geq_target_idx` and `found_target`. -/
def targetSplit (targets : ℕ → ℕ) (tOff num curPivot : ℕ) : ℕ × Bool :=
  let geq := bsearchGe curPivot targets tOff num
  (geq, decide (geq < num ∧ targets (tOff + geq) = curPivot))

/-- `if (found_target) { samples[i] = pivot; sample_idxs[i] = partition_right; }`. -/
def recordSample (found : Bool) (i : ℕ) (pivot : Sample) (partitionRight : ℕ) (st : QsState) :
    QsState :=
  if found then
    { st with
      samples := Function.update st.samples i pivot
      sampleIdxs := Function.update st.sampleIdxs i partitionRight }
  else st

section Worker

variable (W rank : ℕ)

/-- The readiness round: send `left < right` to every other worker, then fold every
worker's flag into `master_rank`. -/
def readyRound (isReady : Bool) : Proc QsMsg (Option ℕ) := do
  Proc.sendOthers rank (.ready isReady) (List.range W)
  Proc.recvFold rank QsMsg.getReady (some isReady) electMaster (List.range W) none

/-- Getting the pivot: the master sends `arr[left]`, the others receive it. -/
def pivotRound (master : ℕ) (pivot : Sample) : Proc QsMsg Sample :=
  if rank = master then do
    Proc.sendOthers rank (.pivot pivot) (List.range W)
    pure pivot
  else Proc.recvAs master QsMsg.getPivot

/-- Summing the partition sizes: the master adds up every `partition_right` and sends the
sum `cur_pivot` back; the others send theirs and receive it. -/
def curPivotRound (master partitionRight : ℕ) : Proc QsMsg ℕ :=
  if rank = master then do
    let curPivot ← Proc.recvFold rank QsMsg.getSize none (fun acc _ n => acc + n)
      (List.range W) partitionRight
    Proc.sendOthers rank (.size curPivot) (List.range W)
    pure curPivot
  else do
    Proc.send master (.size partitionRight) (pure ())
    Proc.recvAs master QsMsg.getSize

/-- The two recursive calls: targets below `cur_pivot` on `[left, partition_right)`, then,
unless that failed, targets above it on `[partition_left, right)`. -/
def descend (recurse : ℕ → ℕ → ℕ → ℕ → QsState → Proc QsMsg (QsState × ℤ))
    (tOff num geq gt left right pl pr : ℕ) (st : QsState) : Proc QsMsg (QsState × ℤ) := do
  let (st, ret) ← recurse tOff geq left pr st
  if ret ≠ 0 then pure (st, ret)
  else recurse (tOff + gt) (num - gt) pl right st

/-- The target dispatch once `cur_pivot` is known, and the recursive calls `recurse`. -/
def dispatch (targets : ℕ → ℕ) (recurse : ℕ → ℕ → ℕ → ℕ → QsState → Proc QsMsg (QsState × ℤ))
    (tOff num left right : ℕ) (part : (ℕ → Elem) × ℕ × ℕ) (pivot : Sample) (st : QsState)
    (curPivot : ℕ) : Proc QsMsg (QsState × ℤ) :=
  let split := targetSplit targets tOff num curPivot
  descend recurse tOff num split.1 (split.1 + split.2.toNat) left right part.2.1 part.2.2
    (recordSample split.2 (tOff + split.1) pivot part.2.2 { st with arr := part.1 })

/-- The rest of a round once the pivot is known: the partition, `cur_pivot` and the
dispatch. -/
def partitionRound (targets : ℕ → ℕ)
    (recurse : ℕ → ℕ → ℕ → ℕ → QsState → Proc QsMsg (QsState × ℤ))
    (tOff num left right : ℕ) (st : QsState) (master : ℕ) (pivot : Sample) :
    Proc QsMsg (QsState × ℤ) :=
  let part := partitionWindow st.arr left right (decide (rank = master)) pivot
  curPivotRound W rank master part.2.2 >>=
    dispatch targets recurse tOff num left right part pivot st

/-- The rest of a round once `master` is elected. -/
def quickselectRound (targets : ℕ → ℕ)
    (recurse : ℕ → ℕ → ℕ → ℕ → QsState → Proc QsMsg (QsState × ℤ))
    (tOff num left right : ℕ) (st : QsState) (master : ℕ) : Proc QsMsg (QsState × ℤ) :=
  pivotRound W rank master (st.arr left).sample >>=
    partitionRound W rank targets recurse tOff num left right st master

/-- `distributed_quickselect_helper(arr, …, targets + tOff, samples + tOff,
sample_idxs + tOff, num, left, right)` on worker `rank` of `W`: the state and `ret`. -/
def quickselectHelper (targets : ℕ → ℕ) :
    ℕ → ℕ → ℕ → ℕ → ℕ → QsState → Proc QsMsg (QsState × ℤ)
  | 0, _, _, _, _, _ => .stop
  | fuel + 1, tOff, num, left, right, st =>
    if num = 0 then pure (st, 0) else do
    let master ← readyRound W rank (decide (left < right))
    match master with
    | none => pure (st, -1)
    | some master =>
      quickselectRound W rank targets (quickselectHelper targets fuel) tOff num left right st master

end Worker

/-! ### The synchronous-round model -/

/-- Worker `w`'s window partitioned around the pivot of `master`. -/
def roundPart (sts : ℕ → QsState) (left right : ℕ → ℕ) (master w : ℕ) : (ℕ → Elem) × ℕ × ℕ :=
  partitionWindow (sts w).arr (left w) (right w) (decide (w = master))
    ((sts master).arr (left master)).sample

/-- `cur_pivot`: the master's sum of every worker's `partition_right`. -/
def roundCurPivot (W : ℕ) (sts : ℕ → QsState) (left right : ℕ → ℕ) (master : ℕ) : ℕ :=
  Proc.foldRecv master none (fun acc _ n => acc + n)
    (fun w => (roundPart sts left right master w).2.2) (List.range W)
    (roundPart sts left right master master).2.2

/-- The targets below `cur_pivot`, and whether one equals it. -/
def roundSplit (W : ℕ) (targets : ℕ → ℕ) (tOff num : ℕ) (sts : ℕ → QsState) (left right : ℕ → ℕ)
    (master : ℕ) : ℕ × Bool :=
  targetSplit targets tOff num (roundCurPivot W sts left right master)

/-- Worker `w`'s state after the round: its partitioned array, with the pivot and its
`partition_right` recorded where a target equals `cur_pivot`. -/
def roundSts (W : ℕ) (targets : ℕ → ℕ) (tOff num : ℕ) (sts : ℕ → QsState) (left right : ℕ → ℕ)
    (master w : ℕ) : QsState :=
  let split := roundSplit W targets tOff num sts left right master
  recordSample split.2 (tOff + split.1) ((sts master).arr (left master)).sample
    (roundPart sts left right master w).2.2 { sts w with arr := (roundPart sts left right master w).1 }

/-- All `W` workers' states and `ret`, one round at a time, with windows `left w` and
`right w`. -/
def syncHelper (W : ℕ) (targets : ℕ → ℕ) :
    ℕ → ℕ → ℕ → (ℕ → ℕ) → (ℕ → ℕ) → (ℕ → QsState) → Option ((ℕ → QsState) × ℤ)
  | 0, _, _, _, _, _ => none
  | fuel + 1, tOff, num, left, right, sts =>
    if num = 0 then some (sts, 0) else
    match electRound W left right with
    | none => some (sts, -1)
    | some master =>
      let split := roundSplit W targets tOff num sts left right master
      let part := roundPart sts left right master
      (syncHelper W targets fuel tOff split.1 left (fun w => (part w).2.2)
          (roundSts W targets tOff num sts left right master)).bind fun r =>
        if r.2 ≠ 0 then some r
        else syncHelper W targets fuel (tOff + (split.1 + split.2.toNat))
          (num - (split.1 + split.2.toNat)) (fun w => (part w).2.1) right r.1

section Sync

variable {W : ℕ} {targets : ℕ → ℕ} {fuel tOff num : ℕ} {left right : ℕ → ℕ} {sts : ℕ → QsState}

theorem syncHelper_num_zero : syncHelper W targets (fuel + 1) tOff 0 left right sts = some (sts, 0) := by
  simp [syncHelper]

theorem syncHelper_no_master (hnum : num ≠ 0) (hm : electRound W left right = none) :
    syncHelper W targets (fuel + 1) tOff num left right sts = some (sts, -1) := by
  simp [syncHelper, hnum, hm]

/-- A round led by `master`: the recursive call on the targets below `cur_pivot`, then, if it
returned 0, the one on the targets above it. -/
theorem syncHelper_master {master : ℕ} (hnum : num ≠ 0) (hm : electRound W left right = some master) :
    syncHelper W targets (fuel + 1) tOff num left right sts =
      (syncHelper W targets fuel tOff (roundSplit W targets tOff num sts left right master).1 left
          (fun w => (roundPart sts left right master w).2.2)
          (roundSts W targets tOff num sts left right master)).bind fun r =>
        if r.2 ≠ 0 then some r
        else syncHelper W targets fuel (tOff + ((roundSplit W targets tOff num sts left right master).1 +
            (roundSplit W targets tOff num sts left right master).2.toNat))
          (num - ((roundSplit W targets tOff num sts left right master).1 +
            (roundSplit W targets tOff num sts left right master).2.toNat))
          (fun w => (roundPart sts left right master w).2.1) right r.1 := by
  simp only [syncHelper, if_neg hnum, hm]

end Sync

/-- The global window size `Σ_w (right_w - left_w)`. -/
def windowSum (W : ℕ) (left right : ℕ → ℕ) : ℕ := ∑ w ∈ Finset.range W, (right w - left w)

/-- Both recursive calls of a round shrink the global window: no worker's window grows, and
the master's loses its pivot. -/
theorem windowSum_round_lt {W master : ℕ} {left right : ℕ → ℕ} (sts : ℕ → QsState)
    (hm : master < W ∧ left master < right master) :
    windowSum W left (fun w => (roundPart sts left right master w).2.2) < windowSum W left right ∧
      windowSum W (fun w => (roundPart sts left right master w).2.1) right <
        windowSum W left right := by
  have hw : ∀ w, (roundPart sts left right master w).2.2 - left w + (decide (w = master)).toNat ≤
      right w - left w ∧ right w - (roundPart sts left right master w).2.1 +
        (decide (w = master)).toNat ≤ right w - left w := fun w =>
    partitionWindow_shrink (sts w).arr (left w) (right w) (decide (w = master))
      ((sts master).arr (left master)).sample (fun h => of_decide_eq_true h ▸ hm.2)
  have hmaster := hw master
  simp only [decide_True, Bool.toNat_true] at hmaster
  exact ⟨Finset.sum_lt_sum (fun w _ => by dsimp only; have := (hw w).1; omega)
      ⟨master, Finset.mem_range.2 hm.1, by dsimp only; omega⟩,
    Finset.sum_lt_sum (fun w _ => by dsimp only; have := (hw w).2; omega)
      ⟨master, Finset.mem_range.2 hm.1, by dsimp only; omega⟩⟩

/-- The synchronous model finishes when the fuel exceeds the global window size, which each
round shrinks. -/
theorem syncHelper_isSome (fuel tOff num : ℕ) (left right : ℕ → ℕ) (sts : ℕ → QsState)
    (h : windowSum W left right < fuel) : (syncHelper W targets fuel tOff num left right sts).isSome := by
  induction fuel generalizing tOff num left right sts with
  | zero => omega
  | succ fuel ih =>
    by_cases hnum : num = 0
    · subst hnum
      rw [syncHelper_num_zero]; rfl
    cases hm : electRound W left right with
    | none => rw [syncHelper_no_master hnum hm]; rfl
    | some master =>
      obtain ⟨h₁, h₂⟩ := windowSum_round_lt sts (electRound_spec hm)
      rw [syncHelper_master hnum hm]
      obtain ⟨r, hr⟩ := Option.isSome_iff_exists.1 (ih tOff _ left
        (fun w => (roundPart sts left right master w).2.2)
        (roundSts W targets tOff num sts left right master) (by omega))
      rw [hr, Option.some_bind]
      split_ifs
      · rfl
      · exact ih _ _ (fun w => (roundPart sts left right master w).2.1) right _ (by omega)

end DistributedSgxSort
