import DistributedSgxSort.MergePass

/-! One shard of a merge pass, round by round. Each round of `do { … } while (!all_done)`
copies the lowest head out, so on sorted runs the loop makes one copy round per record of
the block and then finds every run done. The scan keeps the first of equal heads, so records
of equal rank leave in the order they stand in the block: lower-numbered runs first, and in
run order within a run. The output block is then the one sorted list with those classes, a
function of the input block alone. -/
namespace DistributedSgxSort

/-! ### Rounds -/

section Rounds

variable (args : MergesortPassArgs) (runStart numRuns : ℕ)

/-- The state of the merge loop: `merge_indices`, `output_idx` and the memory. -/
abbrev MergeLoopState := (ℕ → ℕ) × ℕ × (ℕ → Elem)

/-- One round of the loop: `none` when the scan finds every run done, and otherwise the
lowest head copied to `output[run_start + output_idx]` and its cursor moved on. -/
def mergeRound (s : MergeLoopState) : Option MergeLoopState :=
  match scanLowest s.2.2 args runStart s.1 numRuns with
  | none => none
  | some (lowestRun, lowestIdx) =>
    some (Function.update s.1 lowestRun (s.1 lowestRun + 1), s.2.1 + 1,
      Function.update s.2.2 (args.output + (runStart + s.2.1))
        (s.2.2 (args.input + (runStart + lowestIdx))))

/-- `k` copy rounds, `none` if the loop stops before. -/
def mergeRounds : ℕ → MergeLoopState → Option MergeLoopState
  | 0, s => some s
  | k + 1, s => (mergeRound args runStart numRuns s).bind (mergeRounds k)

theorem mergeLoop_succ (fuel : ℕ) (mergeIndices : ℕ → ℕ) (outputIdx : ℕ) (mem : ℕ → Elem) :
    mergeLoop args runStart numRuns (fuel + 1) mergeIndices outputIdx mem =
      match mergeRound args runStart numRuns (mergeIndices, outputIdx, mem) with
      | none => mem
      | some s => mergeLoop args runStart numRuns fuel s.1 s.2.1 s.2.2 := by
  simp only [mergeLoop, mergeRound]
  cases scanLowest mem args runStart mergeIndices numRuns <;> rfl

end Rounds

/-- A concatenation of blocks, one of which starts with `x` and all before which are empty,
is `x` before the concatenation with `x` taken off. -/
theorem flatMap_eq_cons_of_nil_before {β : Type*} {l : List ℕ} (hl : l.Pairwise (· < ·))
    {f g : ℕ → List β} {a : ℕ} {x : β} (ha : a ∈ l) (hfa : f a = x :: g a)
    (hfg : ∀ j ≠ a, f j = g j) (hnil : ∀ j < a, f j = []) : l.flatMap f = x :: l.flatMap g := by
  induction l with
  | nil => simp at ha
  | cons b l ih =>
    rw [List.pairwise_cons] at hl
    rw [List.flatMap_cons, List.flatMap_cons]
    by_cases hb : b = a
    · subst hb
      rw [hfa, List.cons_append, List.flatMap_congr fun j hj => hfg j (hl.1 j hj).ne']
    · have hal : a ∈ l := (List.mem_cons.1 ha).resolve_left (Ne.symm hb)
      rw [← hfg b hb, hnil b (hl.1 a hal), List.nil_append, List.nil_append]
      exact ih hl.2 hal

/-- With no record left in the runs, the scan finds every run done and the loop stops. -/
theorem mergeRound_eq_none {args : MergesortPassArgs} {runStart numRuns : ℕ} {mem₀ : ℕ → Elem}
    {mergeIndices : ℕ → ℕ} (h : restOf args runStart numRuns mem₀ mergeIndices = [])
    (outputIdx : ℕ) (mem : ℕ → Elem) :
    mergeRound args runStart numRuns (mergeIndices, outputIdx, mem) = none := by
  have hdead : ∀ j < numRuns, ¬RunLive args runStart mergeIndices j := fun j hj hlive => by
    have hmem : runHead mem₀ args runStart mergeIndices j ∈
        restOf args runStart numRuns mem₀ mergeIndices :=
      List.mem_flatMap.2 ⟨j, List.mem_range.2 hj, by
        rw [runRest_eq_cons hlive]; exact List.mem_cons_self _ _⟩
    rw [h] at hmem
    exact List.not_mem_nil _ hmem
  simp [mergeRound, (scanLowest_eq_none mem args runStart mergeIndices).2 hdead]

/-! ### Stability -/

section Ties

variable {args : MergesortPassArgs} {runStart numRuns : ℕ}

/-- For every rank, the records of that rank already written, then those still in the runs,
are the block's records of that rank in block order. -/
def MergeTies (args : MergesortPassArgs) (runStart numRuns : ℕ) (mem₀ : ℕ → Elem)
    (mergeIndices : ℕ → ℕ) (outputIdx : ℕ) (mem : ℕ → Elem) : Prop :=
  ∀ v, (readRange mem (args.output + runStart) outputIdx).filter (fun y => y.rank = v) ++
      (restOf args runStart numRuns mem₀ mergeIndices).filter (fun y => y.rank = v) =
    (restOf args runStart numRuns mem₀ fun _ => 0).filter (fun y => y.rank = v)

theorem mergeTies_start (mem₀ : ℕ → Elem) : MergeTies args runStart numRuns mem₀ (fun _ => 0) 0 mem₀ :=
  fun _ => by simp [readRange]

variable {mem₀ mem : ℕ → Elem} {mergeIndices : ℕ → ℕ} {outputIdx : ℕ}
  (hdisj : args.input + args.length ≤ args.output ∨ args.output + args.length ≤ args.input)
  (hsorted : ∀ j < numRuns, (runRest args runStart mem₀ (fun _ => 0) j).Sorted Elem.Le)
include hdisj hsorted

/-- The copied head is the first record of its rank still to come: the runs before its own
have heads above it, and so records above it. -/
theorem MergeTies.step (hinv : MergeInv args runStart numRuns mem₀ mergeIndices outputIdx mem)
    (hties : MergeTies args runStart numRuns mem₀ mergeIndices outputIdx mem) {lr li : ℕ}
    (hs : scanLowest mem args runStart mergeIndices numRuns = some (lr, li)) :
    MergeTies args runStart numRuns mem₀ (Function.update mergeIndices lr (mergeIndices lr + 1))
      (outputIdx + 1) (Function.update mem (args.output + (runStart + outputIdx))
        (mem (args.input + (runStart + li)))) := by
  obtain ⟨hlr, hlive, rfl, -, hstrict⟩ := scanLowest_eq_some mem args runStart mergeIndices hs
  have hx : mem (args.input + (runStart + (lr * args.runLength + mergeIndices lr))) =
      runHead mem₀ args runStart mergeIndices lr := hinv.runHead_eq hdisj hlive
  have hout := readRange_update_end mem (args.output + runStart) outputIdx
    (runHead mem₀ args runStart mergeIndices lr)
  rw [Nat.add_assoc] at hout
  intro v
  rw [hx, hout, List.filter_append, List.append_assoc, ← hties v]
  congr 1
  simp only [restOf, List.filter_flatMap]
  by_cases hv : (runHead mem₀ args runStart mergeIndices lr).rank = v
  · -- the runs before `lr` hold no record of rank `v`
    have hnil : ∀ j < lr, (runRest args runStart mem₀ mergeIndices j).filter
        (fun y => y.rank = v) = [] := fun j hj => List.filter_eq_nil_iff.2 fun y hy => by
      have hjlive := runLive_of_mem_runRest hy
      have hsj := hinv.runRest_sorted hsorted (hj.trans hlr)
      rw [runRest_eq_cons hjlive] at hsj hy
      have hle := (Elem.le_iff _ _).1 (Elem.le_of_sorted_cons hsj hy)
      have hlt : (runHead mem₀ args runStart mergeIndices lr).rank <
          (runHead mem₀ args runStart mergeIndices j).rank := by
        rw [← hinv.runHead_eq hdisj hlive, ← hinv.runHead_eq hdisj hjlive]
        exact hstrict j hj hjlive
      simp only [decide_eq_true_eq]
      rintro rfl
      exact absurd (hlt.trans_le hle) (by rw [hv]; exact lt_irrefl _)
    rw [List.filter_singleton, decide_eq_true hv, cond_true, List.singleton_append]
    exact (flatMap_eq_cons_of_nil_before (List.pairwise_lt_range numRuns) (List.mem_range.2 hlr)
      (by rw [runRest_eq_cons hlive, List.filter_cons_of_pos (by simpa using hv)])
      (fun j hj => by rw [runRest_update_ne hj]) hnil).symm
  · rw [List.filter_singleton, decide_eq_false hv, cond_false, List.nil_append]
    refine List.flatMap_congr fun j _ => ?_
    by_cases hj : j = lr
    · subst hj
      rw [runRest_eq_cons hlive, List.filter_cons_of_neg (by simpa using hv)]
    · rw [runRest_update_ne hj]

/-- While records are left, a round copies one of them out and keeps both invariants. -/
theorem MergeInv.round (hinv : MergeInv args runStart numRuns mem₀ mergeIndices outputIdx mem)
    (hne : restOf args runStart numRuns mem₀ mergeIndices ≠ []) :
    ∃ mergeIndices' mem', mergeRound args runStart numRuns (mergeIndices, outputIdx, mem) =
        some (mergeIndices', outputIdx + 1, mem') ∧
      MergeInv args runStart numRuns mem₀ mergeIndices' (outputIdx + 1) mem' ∧
      (MergeTies args runStart numRuns mem₀ mergeIndices outputIdx mem →
        MergeTies args runStart numRuns mem₀ mergeIndices' (outputIdx + 1) mem') ∧
      (restOf args runStart numRuns mem₀ mergeIndices).length =
        (restOf args runStart numRuns mem₀ mergeIndices').length + 1 := by
  cases hs : scanLowest mem args runStart mergeIndices numRuns with
  | none => exact absurd (restOf_eq_nil ((scanLowest_eq_none mem args runStart mergeIndices).1 hs)) hne
  | some p =>
    obtain ⟨lr, li⟩ := p
    obtain ⟨hlr, hlive, -⟩ := scanLowest_eq_some mem args runStart mergeIndices hs
    refine ⟨_, _, by simp [mergeRound, hs], hinv.step hdisj hsorted hs,
      fun hties => hties.step hdisj hsorted hinv hs, ?_⟩
    simpa using (restOf_perm_cons hlr hlive :
      (restOf args runStart numRuns mem₀ mergeIndices).Perm _).length_eq

/-- `k` rounds, while records are left, copy `k` of them out; the loop given `k` more fuel
does the same. -/
theorem mergeRounds_spec : ∀ (k : ℕ) {mergeIndices : ℕ → ℕ} {outputIdx : ℕ} {mem : ℕ → Elem},
    MergeInv args runStart numRuns mem₀ mergeIndices outputIdx mem →
    MergeTies args runStart numRuns mem₀ mergeIndices outputIdx mem →
    k ≤ (restOf args runStart numRuns mem₀ mergeIndices).length →
    ∃ mergeIndices' mem', mergeRounds args runStart numRuns k (mergeIndices, outputIdx, mem) =
        some (mergeIndices', outputIdx + k, mem') ∧
      MergeInv args runStart numRuns mem₀ mergeIndices' (outputIdx + k) mem' ∧
      MergeTies args runStart numRuns mem₀ mergeIndices' (outputIdx + k) mem' ∧
      (restOf args runStart numRuns mem₀ mergeIndices').length + k =
        (restOf args runStart numRuns mem₀ mergeIndices).length ∧
      ∀ fuel, mergeLoop args runStart numRuns (fuel + k) mergeIndices outputIdx mem =
        mergeLoop args runStart numRuns fuel mergeIndices' (outputIdx + k) mem'
  | 0, _, _, _, hinv, hties, _ => ⟨_, _, rfl, hinv, hties, rfl, fun _ => rfl⟩
  | k + 1, mergeIndices, outputIdx, mem, hinv, hties, hk => by
    obtain ⟨mi₁, mem₁, h₁, hinv₁, hties₁, hlen₁⟩ :=
      hinv.round hdisj hsorted fun h => by rw [h] at hk; simp at hk
    obtain ⟨mi', mem', h', hinv', hties', hlen', hloop'⟩ :=
      mergeRounds_spec k hinv₁ (hties₁ hties) (by omega)
    rw [show outputIdx + 1 + k = outputIdx + (k + 1) by omega] at h' hinv' hties' hloop'
    refine ⟨mi', mem', by simp only [mergeRounds, h₁, Option.some_bind, h'], hinv', hties',
      by omega, fun fuel => ?_⟩
    rw [← Nat.add_assoc, mergeLoop_succ, h₁]
    exact hloop' fuel

/-- From the start of a block, the loop makes one copy round per record of the block and
then stops, the runs used up and both invariants holding. -/
theorem mergeLoop_block {fuel : ℕ}
    (hfuel : min (args.length - runStart) (numRuns * args.runLength) < fuel) :
    ∃ s, mergeRounds args runStart numRuns (min (args.length - runStart) (numRuns * args.runLength))
        (fun _ => 0, 0, mem₀) = some s ∧
      s.2.1 = min (args.length - runStart) (numRuns * args.runLength) ∧
      mergeRound args runStart numRuns s = none ∧
      mergeLoop args runStart numRuns fuel (fun _ => 0) 0 mem₀ = s.2.2 ∧
      MergeInv args runStart numRuns mem₀ s.1 s.2.1 s.2.2 ∧
      MergeTies args runStart numRuns mem₀ s.1 s.2.1 s.2.2 ∧
      restOf args runStart numRuns mem₀ s.1 = [] := by
  have hlen : (restOf args runStart numRuns mem₀ fun _ => 0).length =
      min (args.length - runStart) (numRuns * args.runLength) := by
    rw [restOf_zero, length_readRange]
  obtain ⟨mi', mem', h, hinv, hties, hlen', hloop⟩ := mergeRounds_spec hdisj hsorted
    (min (args.length - runStart) (numRuns * args.runLength)) mergeInv_start (mergeTies_start mem₀)
    hlen.ge
  have hnil : restOf args runStart numRuns mem₀ mi' = [] := List.eq_nil_of_length_eq_zero (by omega)
  rw [Nat.zero_add] at h hinv hties hloop
  refine ⟨_, h, rfl, mergeRound_eq_none hnil _ _, ?_, hinv, hties, hnil⟩
  obtain ⟨f, rfl⟩ : ∃ f, fuel = f + 1 + min (args.length - runStart) (numRuns * args.runLength) :=
    ⟨fuel - 1 - min (args.length - runStart) (numRuns * args.runLength), by omega⟩
  rw [hloop, mergeLoop_succ, mergeRound_eq_none hnil]

end Ties

/-! ### The output block is a function of the input block -/

/-- Two lists sorted under `mergesort_comparator` with the same records of each rank, in the
same order, are equal. -/
theorem eq_of_sorted_of_filter_rank_eq :
    ∀ {l₁ l₂ : List Elem}, l₁.Sorted Elem.Le → l₂.Sorted Elem.Le →
      (∀ v, l₁.filter (fun y => y.rank = v) = l₂.filter (fun y => y.rank = v)) → l₁ = l₂
  | [], [], _, _, _ => rfl
  | [], b :: _, _, _, h => by simpa using (h b.rank).symm
  | a :: _, [], _, _, h => by simpa using h a.rank
  | a :: l₁, b :: l₂, h₁, h₂, h => by
    have hmem : ∀ {x y : Elem} {l l' : List Elem}, (∀ v, (x :: l).filter (fun y => y.rank = v) =
        (y :: l').filter (fun y => y.rank = v)) → y ∈ x :: l := fun {x y l l'} h => by
      have hy : y ∈ (y :: l').filter (fun z => z.rank = y.rank) :=
        List.mem_filter.2 ⟨List.mem_cons_self y l', by simp⟩
      rw [← h y.rank] at hy
      exact List.mem_of_mem_filter hy
    have hab : a.rank = b.rank := le_antisymm
      ((Elem.le_iff _ _).1 (Elem.le_of_sorted_cons h₁ (hmem h)))
      ((Elem.le_iff _ _).1 (Elem.le_of_sorted_cons h₂ (hmem fun v => (h v).symm)))
    have hhead := h a.rank
    rw [List.filter_cons_of_pos (by simp), List.filter_cons_of_pos (by simp [hab]),
      List.cons.injEq] at hhead
    obtain ⟨rfl, -⟩ := hhead
    congr 1
    refine eq_of_sorted_of_filter_rank_eq h₁.of_cons h₂.of_cons fun v => ?_
    have hv := h v
    by_cases hav : a.rank = v
    · rwa [List.filter_cons_of_pos (by simpa using hav), List.filter_cons_of_pos (by simpa using hav),
        List.cons.injEq, eq_self, true_and] at hv
    · rwa [List.filter_cons_of_neg (by simpa using hav), List.filter_cons_of_neg (by simpa using hav)]
        at hv

/-- Runs inside the block read the same from two memories that agree on the block. -/
theorem runRest_congr {args : MergesortPassArgs} {runStart numRuns : ℕ} {mem mem₂ : ℕ → Elem}
    (h : ∀ i < min (args.length - runStart) (numRuns * args.runLength),
      mem₂ (args.input + runStart + i) = mem (args.input + runStart + i)) {j : ℕ} (hj : j < numRuns) :
    runRest args runStart mem₂ (fun _ => 0) j = runRest args runStart mem (fun _ => 0) j :=
  readRange_congr fun i hi => by
    have hR := Nat.mul_le_mul_right args.runLength (Nat.succ_le_of_lt hj)
    rw [Nat.succ_mul] at hR
    simp only [runLen] at hi
    rw [show args.input + (runStart + (j * args.runLength + 0)) + i =
      args.input + runStart + (j * args.runLength + i) by omega]
    exact h _ (by omega)

/-! ### One shard -/

/-- One shard on sorted runs: one copy round per record of its block, then the loop stops;
the output block is sorted, holds each rank's records in block order, and is a permutation
of the input block; nothing outside the output block is written. -/
theorem mergeShard_block (args : MergesortPassArgs) (mem : ℕ → Elem) (runIdx : ℕ)
    (hdisj : args.input + args.length ≤ args.output ∨ args.output + args.length ≤ args.input)
    (hR : 0 < args.runLength)
    (hsorted : ∀ j < min (ceilDiv (args.length - runIdx * args.runLength * bufSize) args.runLength)
      bufSize, (runRest args (runIdx * args.runLength * bufSize) mem (fun _ => 0) j).Sorted Elem.Le) :
    let runStart := runIdx * args.runLength * bufSize
    let numRuns := min (ceilDiv (args.length - runStart) args.runLength) bufSize
    let blockLen := min (args.runLength * bufSize) (args.length - runStart)
    (∃ s, mergeRounds args runStart numRuns blockLen (fun _ => 0, 0, mem) = some s ∧
        s.2.1 = blockLen ∧ mergeRound args runStart numRuns s = none ∧
        mergeShard args mem runIdx = s.2.2) ∧
      (readRange (mergeShard args mem runIdx) (args.output + runStart) blockLen).Sorted Elem.Le ∧
      (∀ v, (readRange (mergeShard args mem runIdx) (args.output + runStart) blockLen).filter
          (fun y => y.rank = v) =
        (readRange mem (args.input + runStart) blockLen).filter (fun y => y.rank = v)) ∧
      (readRange (mergeShard args mem runIdx) (args.output + runStart) blockLen).Perm
        (readRange mem (args.input + runStart) blockLen) ∧
      ∀ p, p < args.output + runStart ∨ args.output + runStart + blockLen ≤ p →
        mergeShard args mem runIdx p = mem p := by
  intro runStart numRuns blockLen
  have hL : min (args.length - runStart) (numRuns * args.runLength) = blockLen :=
    min_numRuns_mul _ _ _ hR
  obtain ⟨s, hs, hs1, hnone, hloop, hinv, hties, hnil⟩ := mergeLoop_block hdisj hsorted
    (show min (args.length - runStart) (numRuns * args.runLength) < args.length + 1 by omega)
  have hmerge : mergeShard args mem runIdx = s.2.2 := hloop
  rw [hL] at hs hs1
  have hperm := hinv.perm
  rw [hnil, List.append_nil, restOf_zero, hL, hs1] at hperm
  refine ⟨⟨s, hs, hs1, hnone, hmerge⟩, ?_, fun v => ?_, ?_, fun p hp => ?_⟩ <;> rw [hmerge]
  · exact hs1 ▸ hinv.sorted
  · have := hties v
    rwa [hnil, List.filter_nil, List.append_nil, restOf_zero, hL, hs1] at this
  · exact hperm
  · exact hinv.frame p (hs1 ▸ hp)

/-- `mergesort_pass(args, b)`, once its `malloc` has succeeded, on the block of
`run_length * BUF_SIZE` records at `b * run_length * BUF_SIZE`, truncated at `length`, whose
`BUF_SIZE` runs of `run_length` records are each non-decreasing: the loop makes one copy round
per record of the block and then finds every run done; the output block is a non-decreasing
permutation of the input block in which records of equal rank keep their block order, the
lower-numbered run first; nothing outside the output block is written, the input included;
and the output block depends on no record outside the input block. -/
theorem mergesort_pass_block (mallocOk : ℕ → ℕ → Bool) (errno : ℕ → ℕ → ℤ)
    (args : MergesortPassArgs) (b : ℕ) (mem : ℕ → Elem) (ret : ℤ) (hR : 0 < args.runLength)
    (hdisj : args.input + args.length ≤ args.output ∨ args.output + args.length ≤ args.input)
    (hruns : ∀ j < bufSize, (readRange mem
      (args.input + (b * args.runLength * bufSize + j * args.runLength))
      (min args.runLength (args.length - (b * args.runLength * bufSize + j * args.runLength)))).Sorted
        Elem.Le)
    (hmalloc : mallocOk args.runLength b = true) :
    let runStart := b * args.runLength * bufSize
    let numRuns := min (ceilDiv (args.length - runStart) args.runLength) bufSize
    let blockLen := min (args.runLength * bufSize) (args.length - runStart)
    let mem' := (mergesortPass mallocOk errno args (mem, ret) b).1
    (∃ s, mergeRounds args runStart numRuns blockLen (fun _ => 0, 0, mem) = some s ∧
        s.2.1 = blockLen ∧ mergeRound args runStart numRuns s = none ∧
        mergesortPass mallocOk errno args (mem, ret) b = (s.2.2, ret)) ∧
      (readRange mem' (args.output + runStart) blockLen).Perm
        (readRange mem (args.input + runStart) blockLen) ∧
      (readRange mem' (args.output + runStart) blockLen).Sorted Elem.Le ∧
      (∀ v, (readRange mem' (args.output + runStart) blockLen).filter (fun y => y.rank = v) =
        (readRange mem (args.input + runStart) blockLen).filter (fun y => y.rank = v)) ∧
      (∀ p, p < args.output + runStart ∨ args.output + runStart + blockLen ≤ p → mem' p = mem p) ∧
      (∀ i < args.length, mem' (args.input + i) = mem (args.input + i)) ∧
      ∀ mem₂ : ℕ → Elem, (∀ i < blockLen,
          mem₂ (args.input + runStart + i) = mem (args.input + runStart + i)) →
        ∀ i < blockLen, (mergesortPass mallocOk errno args (mem₂, ret) b).1 (args.output + runStart + i) =
          mem' (args.output + runStart + i) := by
  intro runStart numRuns blockLen mem'
  have hL : min (args.length - runStart) (numRuns * args.runLength) = blockLen :=
    min_numRuns_mul _ _ _ hR
  have hsorted : ∀ m : ℕ → Elem, (∀ i < blockLen,
      m (args.input + runStart + i) = mem (args.input + runStart + i)) →
      ∀ j < numRuns, (runRest args runStart m (fun _ => 0) j).Sorted Elem.Le := fun m hm j hj => by
    rw [runRest_congr (fun i hi => hm i (hL ▸ hi)) hj]
    simpa only [runRest, runLen, Nat.add_zero, Nat.sub_zero, Nat.sub_sub] using
      hruns j (lt_of_lt_of_le hj (min_le_right _ _))
  have hpass : ∀ m, mergesortPass mallocOk errno args (m, ret) b = (mergeShard args m b, ret) :=
    fun m => mergesortPass_of_mallocOk hmalloc errno (m, ret)
  obtain ⟨⟨s, hs, hs1, hnone, hmerge⟩, hsort, hfilter, hperm, hframe⟩ :=
    mergeShard_block args mem b hdisj hR (hsorted mem fun _ _ => rfl)
  have hmem' : mem' = mergeShard args mem b := by simp only [mem', hpass]
  have hbl : blockLen ≤ args.length - runStart := min_le_right _ _
  refine ⟨⟨s, hs, hs1, hnone, by rw [hpass, hmerge]⟩, hmem' ▸ hperm, hmem' ▸ hsort,
    hmem' ▸ hfilter, hmem' ▸ hframe, fun i hi => hmem' ▸ hframe _ (by omega),
    fun mem₂ h₂ i hi => ?_⟩
  obtain ⟨-, hsort₂, hfilter₂, -, -⟩ := mergeShard_block args mem₂ b hdisj hR (hsorted mem₂ h₂)
  have heq : readRange (mergeShard args mem₂ b) (args.output + runStart) blockLen =
      readRange (mergeShard args mem b) (args.output + runStart) blockLen :=
    eq_of_sorted_of_filter_rank_eq hsort₂ hsort fun v => by
      rw [hfilter₂, hfilter, readRange_congr h₂]
  have := List.getElem_of_eq heq (by simpa using hi)
  simp only [getElem_readRange] at this
  rw [hpass, hmem']
  exact this

theorem mergesort_pass_block_three : 0 < 1 ∧ (0 + 3 ≤ 10 ∨ 10 + 3 ≤ 0) ∧
    (∀ j < bufSize, (readRange (fun p => ⟨3 - p, p, 0⟩) (0 + (0 * 1 * bufSize + j * 1))
      (min 1 (3 - (0 * 1 * bufSize + j * 1)))).Sorted Elem.Le) ∧ (fun _ _ => true) 1 0 = true ∧
    let runStart := 0 * 1 * bufSize
    let numRuns := min (ceilDiv (3 - runStart) 1) bufSize
    let blockLen := min (1 * bufSize) (3 - runStart)
    let mem' :=
      (mergesortPass (fun _ _ => true) (fun _ _ => 12) ⟨0, 10, 3, 1⟩ (fun p => ⟨3 - p, p, 0⟩, 0) 0).1
    (∃ s, mergeRounds ⟨0, 10, 3, 1⟩ runStart numRuns blockLen (fun _ => 0, 0, fun p => ⟨3 - p, p, 0⟩) =
          some s ∧
        s.2.1 = blockLen ∧ mergeRound ⟨0, 10, 3, 1⟩ runStart numRuns s = none ∧
        mergesortPass (fun _ _ => true) (fun _ _ => 12) ⟨0, 10, 3, 1⟩ (fun p => ⟨3 - p, p, 0⟩, 0) 0 =
          (s.2.2, 0)) ∧
      (readRange mem' (10 + runStart) blockLen).Perm
        (readRange (fun p => ⟨3 - p, p, 0⟩) (0 + runStart) blockLen) ∧
      (readRange mem' (10 + runStart) blockLen).Sorted Elem.Le ∧
      (∀ v, (readRange mem' (10 + runStart) blockLen).filter (fun y => y.rank = v) =
        (readRange (fun p => ⟨3 - p, p, 0⟩) (0 + runStart) blockLen).filter
          (fun y => y.rank = v)) ∧
      (∀ p, p < 10 + runStart ∨ 10 + runStart + blockLen ≤ p → mem' p = ⟨3 - p, p, 0⟩) ∧
      (∀ i < 3, mem' (0 + i) = ⟨3 - (0 + i), 0 + i, 0⟩) ∧
      ∀ mem₂ : ℕ → Elem, (∀ i < blockLen, mem₂ (0 + runStart + i) = ⟨3 - (0 + runStart + i),
          0 + runStart + i, 0⟩) →
        ∀ i < blockLen,
          (mergesortPass (fun _ _ => true) (fun _ _ => 12) ⟨0, 10, 3, 1⟩ (mem₂, 0) 0).1
            (10 + runStart + i) = mem' (10 + runStart + i) :=
  have hruns : ∀ j < bufSize, (readRange (fun p => (⟨3 - p, p, 0⟩ : Elem))
      (0 + (0 * 1 * bufSize + j * 1)) (min 1 (3 - (0 * 1 * bufSize + j * 1)))).Sorted Elem.Le :=
    fun j _ => by
      rcases Nat.le_one_iff_eq_zero_or_eq_one.1 (min_le_left 1 (3 - (0 * 1 * bufSize + j * 1)))
        with h | h <;> rw [h] <;> simp [readRange, List.range_succ]
  ⟨Nat.one_pos, by decide, hruns, rfl,
    mergesort_pass_block (fun _ _ => true) (fun _ _ => 12) ⟨0, 10, 3, 1⟩ 0 (fun p => ⟨3 - p, p, 0⟩) 0 Nat.one_pos
      (by decide) hruns rfl⟩

end DistributedSgxSort
