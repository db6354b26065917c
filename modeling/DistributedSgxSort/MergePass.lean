import Mathlib.Algebra.BigOperators.Group.Finset
import Mathlib.Data.Multiset.Basic
import DistributedSgxSort.Mergesort

/-! One shard of a merge pass. `mergesort_pass` merges the up to `BUF_SIZE` sorted runs of
its block into the same block of the output buffer: at every round the scan finds the
lowest head, lower-numbered runs first on ties, and the loop copies it out. -/
namespace DistributedSgxSort

section Scan

variable (mem : ℕ → Elem) (args : MergesortPassArgs) (runStart : ℕ) (mergeIndices : ℕ → ℕ)

/-- Run `j` still has a record at its cursor: the scan does not `continue` on it. -/
def RunLive (j : ℕ) : Prop :=
  mergeIndices j < args.runLength ∧ runStart + (j * args.runLength + mergeIndices j) < args.length

instance (j : ℕ) : Decidable (RunLive args runStart mergeIndices j) :=
  inferInstanceAs (Decidable (_ ∧ _))

/-- The record at the cursor of run `j`. -/
def runHead (j : ℕ) : Elem :=
  mem (args.input + (runStart + (j * args.runLength + mergeIndices j)))

theorem scanLowest_eq_none {k : ℕ} :
    scanLowest mem args runStart mergeIndices k = none ↔
      ∀ j < k, ¬RunLive args runStart mergeIndices j := by
  induction k with
  | zero => simp [scanLowest]
  | succ k ih =>
    simp only [scanLowest, RunLive]
    split_ifs with h
    · rw [ih]
      exact ⟨fun h' j hj => if e : j = k then e ▸ (by omega) else h' j (by omega),
        fun h' j hj => h' j (by omega)⟩
    · constructor
      · intro hs
        cases hl : scanLowest mem args runStart mergeIndices k with
        | none => simp [hl] at hs
        | some p => simp only [hl] at hs; split_ifs at hs
      · intro h'
        exact absurd ⟨by omega, by omega⟩ (h' k (by omega))

/-- The scan returns a live run whose head is lowest, and below the heads of all live
runs before it. -/
theorem scanLowest_eq_some {k lowestRun lowestIdx : ℕ}
    (hs : scanLowest mem args runStart mergeIndices k = some (lowestRun, lowestIdx)) :
    lowestRun < k ∧ RunLive args runStart mergeIndices lowestRun ∧
      lowestIdx = lowestRun * args.runLength + mergeIndices lowestRun ∧
      (∀ j < k, RunLive args runStart mergeIndices j →
        (runHead mem args runStart mergeIndices lowestRun).rank ≤
          (runHead mem args runStart mergeIndices j).rank) ∧
      ∀ j < lowestRun, RunLive args runStart mergeIndices j →
        (runHead mem args runStart mergeIndices lowestRun).rank <
          (runHead mem args runStart mergeIndices j).rank := by
  induction k generalizing lowestRun lowestIdx with
  | zero => simp [scanLowest] at hs
  | succ k ih =>
    simp only [scanLowest] at hs
    split_ifs at hs with hlive
    · obtain ⟨h1, h2, h3, h4, h5⟩ := ih hs
      refine ⟨by omega, h2, h3, fun j hj hjl => ?_, h5⟩
      rcases Nat.lt_or_ge j k with hjk | hjk
      · exact h4 j hjk hjl
      · obtain rfl : j = k := by omega
        exact absurd hjl (by unfold RunLive; omega)
    · have hk : RunLive args runStart mergeIndices k := by unfold RunLive; omega
      cases hl : scanLowest mem args runStart mergeIndices k with
      | none =>
        rw [hl] at hs
        obtain ⟨rfl, rfl⟩ := Prod.mk.inj (Option.some.inj hs)
        have hnone := (scanLowest_eq_none mem args runStart mergeIndices).1 hl
        refine ⟨by omega, hk, rfl, fun j hj hjl => ?_, fun j hj hjl => absurd hjl (hnone j hj)⟩
        rcases Nat.lt_or_ge j k with hjk | hjk
        · exact absurd hjl (hnone j hjk)
        · obtain rfl : j = k := by omega
          exact le_rfl
      | some p =>
        obtain ⟨lr, li⟩ := p
        obtain ⟨h1, h2, h3, h4, h5⟩ := ih hl
        rw [hl] at hs
        simp only at hs
        split_ifs at hs with hlt
        · obtain ⟨rfl, rfl⟩ := Prod.mk.inj (Option.some.inj hs)
          rw [h3, mergesortComparator_neg_iff] at hlt
          have hlt' : (runHead mem args runStart mergeIndices k).rank <
              (runHead mem args runStart mergeIndices lr).rank := hlt
          refine ⟨by omega, hk, rfl, fun j hj hjl => ?_, fun j hj hjl => ?_⟩
          · rcases Nat.lt_or_ge j k with hjk | hjk
            · exact hlt'.le.trans (h4 j hjk hjl)
            · obtain rfl : j = k := by omega
              exact le_rfl
          · exact lt_of_lt_of_le hlt' (h4 j hj hjl)
        · obtain ⟨rfl, rfl⟩ := Prod.mk.inj (Option.some.inj hs)
          rw [h3, mergesortComparator_neg_iff, not_lt] at hlt
          refine ⟨by omega, h2, h3, fun j hj hjl => ?_, h5⟩
          rcases Nat.lt_or_ge j k with hjk | hjk
          · exact h4 j hjk hjl
          · obtain rfl : j = k := by omega
            exact hlt

end Scan

theorem Elem.le_of_sorted_cons {x y : Elem} {l : List Elem} (h : (x :: l).Sorted Elem.Le)
    (hy : y ∈ x :: l) : x.Le y := by
  rcases List.mem_cons.1 hy with rfl | hy
  · exact refl_of Elem.Le y
  · exact List.rel_of_sorted_cons h y hy

/-- Changing one block of a concatenation by taking its head off moves that head to the
front, up to permutation. -/
theorem perm_flatMap_of_eq_cons {β : Type*} {l : List ℕ} (hl : l.Nodup) {f g : ℕ → List β}
    {a : ℕ} {x : β} (ha : a ∈ l) (hfa : f a = x :: g a) (hfg : ∀ j ≠ a, f j = g j) :
    (l.flatMap f).Perm (x :: l.flatMap g) := by
  induction l with
  | nil => simp at ha
  | cons b l ih =>
    rw [List.nodup_cons] at hl
    rw [List.flatMap_cons, List.flatMap_cons]
    by_cases hb : b = a
    · subst hb
      rw [hfa]
      exact (List.Perm.flatMap_left l fun j hj => by
        rw [hfg j fun h => hl.1 (h ▸ hj)]).append_left (x :: g b)
    · rw [hfg b hb]
      exact ((ih hl.2 (by simpa [Ne.symm hb] using ha)).append_left (g b)).trans List.perm_middle

/-! ### The merge loop -/

section Loop

variable (args : MergesortPassArgs) (runStart numRuns : ℕ)

/-- The length of run `j` of the block at `runStart`, the last run truncated at `length`. -/
def runLen (j : ℕ) : ℕ := min args.runLength (args.length - runStart - j * args.runLength)

theorem runLive_iff {mergeIndices : ℕ → ℕ} {j : ℕ} :
    RunLive args runStart mergeIndices j ↔ mergeIndices j < runLen args runStart j := by
  unfold RunLive runLen
  omega

/-- The records of run `j` from its cursor on. -/
def runRest (mem : ℕ → Elem) (mergeIndices : ℕ → ℕ) (j : ℕ) : List Elem :=
  readRange mem (args.input + (runStart + (j * args.runLength + mergeIndices j)))
    (runLen args runStart j - mergeIndices j)

/-- The records of all runs from their cursors on. -/
def restOf (mem : ℕ → Elem) (mergeIndices : ℕ → ℕ) : List Elem :=
  (List.range numRuns).flatMap (runRest args runStart mem mergeIndices)

/-- The invariant of the merge loop started on `mem₀`: the cursors stay within their runs,
only the first `outputIdx` slots of the block's output have been written, and these hold,
sorted, the records the cursors have passed, each at most every record still to come. -/
structure MergeInv (mem₀ : ℕ → Elem) (mergeIndices : ℕ → ℕ) (outputIdx : ℕ) (mem : ℕ → Elem) :
    Prop where
  le_runLen : ∀ j, mergeIndices j ≤ runLen args runStart j
  frame : ∀ p, p < args.output + runStart ∨ args.output + runStart + outputIdx ≤ p → mem p = mem₀ p
  perm : (readRange mem (args.output + runStart) outputIdx ++
    restOf args runStart numRuns mem₀ mergeIndices).Perm (restOf args runStart numRuns mem₀ fun _ => 0)
  sorted : (readRange mem (args.output + runStart) outputIdx).Sorted Elem.Le
  le_rest : ∀ x ∈ readRange mem (args.output + runStart) outputIdx,
    ∀ y ∈ restOf args runStart numRuns mem₀ mergeIndices, x.Le y

variable {args runStart numRuns} {mem₀ mem : ℕ → Elem} {mergeIndices : ℕ → ℕ}

theorem runRest_eq_cons {j : ℕ} (h : RunLive args runStart mergeIndices j) :
    runRest args runStart mem mergeIndices j = runHead mem args runStart mergeIndices j ::
      runRest args runStart mem (Function.update mergeIndices j (mergeIndices j + 1)) j := by
  rw [runLive_iff] at h
  obtain ⟨r, hr⟩ : ∃ r, runLen args runStart j - mergeIndices j = r + 1 := ⟨_, (Nat.succ_pred_eq_of_pos (by omega)).symm⟩
  unfold runRest runHead
  rw [Function.update_same, hr, readRange_cons]
  congr 2
  omega

theorem runRest_update_ne {i j : ℕ} (h : j ≠ i) (v : ℕ) :
    runRest args runStart mem (Function.update mergeIndices i v) j =
      runRest args runStart mem mergeIndices j := by
  simp only [runRest, Function.update_noteq h]

theorem runLive_of_mem_runRest {j : ℕ} {y : Elem} (hy : y ∈ runRest args runStart mem mergeIndices j) :
    RunLive args runStart mergeIndices j := by
  have := List.length_pos_of_mem hy
  rw [runRest, length_readRange] at this
  rw [runLive_iff]
  omega

theorem runRest_eq_drop {j : ℕ} (h : mergeIndices j ≤ runLen args runStart j) :
    runRest args runStart mem mergeIndices j =
      (runRest args runStart mem (fun _ => 0) j).drop (mergeIndices j) := by
  have e : runLen args runStart j - 0 = mergeIndices j + (runLen args runStart j - mergeIndices j) := by
    omega
  simp only [runRest]
  rw [e, readRange_drop]
  congr 1
  omega

theorem restOf_zero :
    restOf args runStart numRuns mem (fun _ => 0) =
      readRange mem (args.input + runStart) (min (args.length - runStart) (numRuns * args.runLength)) := by
  rw [← flatMap_readRange_blocks]
  refine List.flatMap_congr fun j _ => ?_
  simp only [runRest, runLen, Nat.add_zero, Nat.sub_zero, Nat.add_assoc, Nat.sub_sub]

theorem restOf_perm_cons {lr : ℕ} (hlr : lr < numRuns) (hlive : RunLive args runStart mergeIndices lr) :
    (restOf args runStart numRuns mem mergeIndices).Perm (runHead mem args runStart mergeIndices lr ::
      restOf args runStart numRuns mem (Function.update mergeIndices lr (mergeIndices lr + 1))) :=
  perm_flatMap_of_eq_cons (List.nodup_range numRuns) (List.mem_range.2 hlr) (runRest_eq_cons hlive)
    fun _ hj => (runRest_update_ne hj _).symm

theorem restOf_eq_nil (h : ∀ j < numRuns, ¬RunLive args runStart mergeIndices j) :
    restOf args runStart numRuns mem mergeIndices = [] :=
  List.flatMap_eq_nil_iff.2 fun j hj => by
    have hj := h j (List.mem_range.1 hj)
    rw [runLive_iff] at hj
    simp [runRest, show runLen args runStart j - mergeIndices j = 0 by omega, readRange]

theorem mergeInv_start : MergeInv args runStart numRuns mem₀ (fun _ => 0) 0 mem₀ where
  le_runLen _ := Nat.zero_le _
  frame _ _ := rfl
  perm := by simp [readRange]
  sorted := by simp [readRange]
  le_rest := by simp [readRange]

variable {outputIdx : ℕ}

theorem MergeInv.outputIdx_add_le (hinv : MergeInv args runStart numRuns mem₀ mergeIndices outputIdx mem) :
    outputIdx + (restOf args runStart numRuns mem₀ mergeIndices).length ≤ args.length - runStart := by
  have := hinv.perm.length_eq
  rw [List.length_append, length_readRange, restOf_zero, length_readRange] at this
  omega

variable
  (hdisj : args.input + args.length ≤ args.output ∨ args.output + args.length ≤ args.input)
include hdisj

/-- The loop reads the heads of live runs where `mem₀` had them. -/
theorem MergeInv.runHead_eq (hinv : MergeInv args runStart numRuns mem₀ mergeIndices outputIdx mem)
    {j : ℕ} (hlive : RunLive args runStart mergeIndices j) :
    runHead mem args runStart mergeIndices j = runHead mem₀ args runStart mergeIndices j := by
  have := hinv.outputIdx_add_le
  unfold RunLive at hlive
  exact hinv.frame _ (by omega)

variable
  (hsorted : ∀ j < numRuns, (runRest args runStart mem₀ (fun _ => 0) j).Sorted Elem.Le)
include hsorted

omit hdisj in
theorem MergeInv.runRest_sorted (hinv : MergeInv args runStart numRuns mem₀ mergeIndices outputIdx mem)
    {j : ℕ} (hj : j < numRuns) : (runRest args runStart mem₀ mergeIndices j).Sorted Elem.Le := by
  rw [runRest_eq_drop (hinv.le_runLen j)]
  exact (hsorted j hj).sublist (List.drop_sublist _ _)

/-- The record the scan picks is at most every record still to come after it. -/
theorem MergeInv.lowest_le (hinv : MergeInv args runStart numRuns mem₀ mergeIndices outputIdx mem)
    {lr li : ℕ} (hs : scanLowest mem args runStart mergeIndices numRuns = some (lr, li)) {y : Elem}
    (hy : y ∈ restOf args runStart numRuns mem₀ (Function.update mergeIndices lr (mergeIndices lr + 1))) :
    (runHead mem₀ args runStart mergeIndices lr).Le y := by
  obtain ⟨hlr, hlive, -, hmin, -⟩ := scanLowest_eq_some mem args runStart mergeIndices hs
  obtain ⟨j, hj, hyj⟩ := List.mem_flatMap.1 hy
  have hj := List.mem_range.1 hj
  by_cases hjl : j = lr
  · subst hjl
    have := hinv.runRest_sorted hsorted hj
    rw [runRest_eq_cons hlive] at this
    exact Elem.le_of_sorted_cons this (List.mem_cons_of_mem _ hyj)
  · rw [runRest_update_ne hjl] at hyj
    have hjlive := runLive_of_mem_runRest hyj
    have hsj := hinv.runRest_sorted hsorted hj
    rw [runRest_eq_cons hjlive] at hsj hyj
    have hhead : (runHead mem₀ args runStart mergeIndices lr).Le (runHead mem₀ args runStart mergeIndices j) := by
      rw [Elem.le_iff, ← hinv.runHead_eq hdisj hlive, ← hinv.runHead_eq hdisj hjlive]
      exact hmin j hj hjlive
    exact trans_of Elem.Le hhead (Elem.le_of_sorted_cons hsj hyj)

/-- One round of the loop keeps the invariant. -/
theorem MergeInv.step (hinv : MergeInv args runStart numRuns mem₀ mergeIndices outputIdx mem)
    {lr li : ℕ} (hs : scanLowest mem args runStart mergeIndices numRuns = some (lr, li)) :
    MergeInv args runStart numRuns mem₀ (Function.update mergeIndices lr (mergeIndices lr + 1))
      (outputIdx + 1) (Function.update mem (args.output + (runStart + outputIdx))
        (mem (args.input + (runStart + li)))) := by
  obtain ⟨hlr, hlive, rfl, -, -⟩ := scanLowest_eq_some mem args runStart mergeIndices hs
  have hx : mem (args.input + (runStart + (lr * args.runLength + mergeIndices lr))) =
      runHead mem₀ args runStart mergeIndices lr := hinv.runHead_eq hdisj hlive
  have hperm : (restOf args runStart numRuns mem₀ mergeIndices).Perm
      (runHead mem₀ args runStart mergeIndices lr :: restOf args runStart numRuns mem₀
        (Function.update mergeIndices lr (mergeIndices lr + 1))) := restOf_perm_cons hlr hlive
  have hxmem := hperm.symm.subset (List.mem_cons_self _ _)
  have hout := readRange_update_end mem (args.output + runStart) outputIdx
    (runHead mem₀ args runStart mergeIndices lr)
  rw [Nat.add_assoc] at hout
  rw [hx]
  refine ⟨fun j => ?_, fun p hp => ?_, ?_, ?_, ?_⟩ <;> try rw [hout]
  · by_cases hj : j = lr
    · subst hj
      rw [Function.update_same]
      exact ((runLive_iff _ _).1 hlive)
    · rw [Function.update_noteq hj]
      exact hinv.le_runLen j
  · rw [Function.update_noteq (by omega)]
    exact hinv.frame p (by omega)
  · rw [List.append_assoc, List.singleton_append]
    exact (hperm.symm.append_left _).trans hinv.perm
  · exact List.pairwise_append.2 ⟨hinv.sorted, List.pairwise_singleton _ _,
      fun a ha b hb => List.eq_of_mem_singleton hb ▸ hinv.le_rest a ha _ hxmem⟩
  · intro a ha y hy
    rcases List.mem_append.1 ha with ha | ha
    · exact hinv.le_rest a ha y (hperm.symm.subset (List.mem_cons_of_mem _ hy))
    · exact List.eq_of_mem_singleton ha ▸ hinv.lowest_le hdisj hsorted hs hy

/-- With fuel above the number of records left, the loop runs until every run is used up. -/
theorem mergeLoop_spec (fuel : ℕ) (hinv : MergeInv args runStart numRuns mem₀ mergeIndices outputIdx mem)
    (hfuel : (restOf args runStart numRuns mem₀ mergeIndices).length < fuel) :
    ∃ mergeIndices' outputIdx', MergeInv args runStart numRuns mem₀ mergeIndices' outputIdx'
        (mergeLoop args runStart numRuns fuel mergeIndices outputIdx mem) ∧
      restOf args runStart numRuns mem₀ mergeIndices' = [] := by
  induction fuel generalizing mergeIndices outputIdx mem with
  | zero => omega
  | succ fuel ih =>
    rw [mergeLoop]
    cases hs : scanLowest mem args runStart mergeIndices numRuns with
    | none =>
      exact ⟨mergeIndices, outputIdx, hinv,
        restOf_eq_nil ((scanLowest_eq_none mem args runStart mergeIndices).1 hs)⟩
    | some p =>
      obtain ⟨lr, li⟩ := p
      obtain ⟨hlr, hlive, -⟩ := scanLowest_eq_some mem args runStart mergeIndices hs
      have := (restOf_perm_cons hlr hlive :
        (restOf args runStart numRuns mem₀ mergeIndices).Perm _).length_eq
      rw [List.length_cons] at this
      exact ih (hinv.step hdisj hsorted hs) (by omega)

end Loop

/-! ### One shard -/

/-- Every run of `runLength` records of `[base, base + length)`, the last one truncated,
is sorted. -/
def RunsSorted (mem : ℕ → Elem) (base length runLength : ℕ) : Prop :=
  ∀ j, (readRange mem (base + j * runLength) (min runLength (length - j * runLength))).Sorted Elem.Le

/-- `mergesort_pass(args, run_idx)` once its `malloc` has succeeded. -/
def mergeShard (args : MergesortPassArgs) (mem : ℕ → Elem) (runIdx : ℕ) : ℕ → Elem :=
  let runStart := runIdx * args.runLength * bufSize
  mergeLoop args runStart (min (ceilDiv (args.length - runStart) args.runLength) bufSize)
    (args.length + 1) (fun _ => 0) 0 mem

theorem mergesortPass_of_mallocOk {mallocOk : ℕ → ℕ → Bool} {args : MergesortPassArgs} {runIdx : ℕ}
    (h : mallocOk args.runLength runIdx = true) (errno : ℕ → ℕ → ℤ) (st : (ℕ → Elem) × ℤ) :
    mergesortPass mallocOk errno args st runIdx = (mergeShard args st.1 runIdx, st.2) := by
  simp [mergesortPass, mergeShard, h]

/-- The block of a shard: its `min(run_length, BUF_SIZE)`-way merge covers
`min(length - run_start, run_length * BUF_SIZE)` records. -/
theorem min_numRuns_mul (length runStart runLength : ℕ) (hR : 0 < runLength) :
    min (length - runStart) (min (ceilDiv (length - runStart) runLength) bufSize * runLength) =
      min (runLength * bufSize) (length - runStart) := by
  have h1 := le_ceilDiv_mul (length - runStart) hR
  rcases le_total (ceilDiv (length - runStart) runLength) bufSize with h | h
  · have h2 := Nat.mul_le_mul_right runLength h
    rw [min_eq_left h, Nat.mul_comm runLength]
    omega
  · rw [min_eq_right h, Nat.mul_comm, min_comm]

/-- One shard merges the sorted runs of its block, `run_length * BUF_SIZE` records truncated
at `length`, into the same block of the output, and writes nothing else. -/
theorem mergeShard_spec (args : MergesortPassArgs) (mem : ℕ → Elem) (runIdx : ℕ)
    (hdisj : args.input + args.length ≤ args.output ∨ args.output + args.length ≤ args.input)
    (hR : 0 < args.runLength) (hsorted : RunsSorted mem args.input args.length args.runLength) :
    (readRange (mergeShard args mem runIdx) (args.output + runIdx * (args.runLength * bufSize))
        (min (args.runLength * bufSize) (args.length - runIdx * (args.runLength * bufSize)))).Perm
      (readRange mem (args.input + runIdx * (args.runLength * bufSize))
        (min (args.runLength * bufSize) (args.length - runIdx * (args.runLength * bufSize)))) ∧
    (readRange (mergeShard args mem runIdx) (args.output + runIdx * (args.runLength * bufSize))
        (min (args.runLength * bufSize) (args.length - runIdx * (args.runLength * bufSize)))).Sorted
      Elem.Le ∧
    ∀ p, p < args.output + runIdx * (args.runLength * bufSize) ∨
        args.output + runIdx * (args.runLength * bufSize) +
          min (args.runLength * bufSize) (args.length - runIdx * (args.runLength * bufSize)) ≤ p →
      mergeShard args mem runIdx p = mem p := by
  rw [← Nat.mul_assoc]
  have hruns : ∀ j < min (ceilDiv (args.length - runIdx * args.runLength * bufSize) args.runLength) bufSize,
      (runRest args (runIdx * args.runLength * bufSize) mem (fun _ => 0) j).Sorted Elem.Le := by
    intro j _
    have := hsorted (runIdx * bufSize + j)
    rw [show (runIdx * bufSize + j) * args.runLength =
      runIdx * args.runLength * bufSize + j * args.runLength by
        rw [Nat.add_mul, Nat.mul_right_comm]] at this
    simpa only [runRest, runLen, Nat.add_zero, Nat.sub_zero, Nat.add_assoc, Nat.sub_sub] using this
  obtain ⟨_, _, hinv, hnil⟩ := mergeLoop_spec hdisj hruns (args.length + 1) mergeInv_start
    (by rw [restOf_zero, length_readRange]; omega)
  have hperm := hinv.perm
  rw [hnil, List.append_nil, restOf_zero, min_numRuns_mul _ _ _ hR] at hperm
  obtain rfl := by simpa using hperm.length_eq
  exact ⟨hperm, hinv.sorted, hinv.frame⟩

end DistributedSgxSort
