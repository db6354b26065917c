import DistributedSgxSort.MergePass

/-! `mergesort` sorts. The first pass sorts blocks of `BUF_SIZE` records in place, each merge
pass merges blocks of `run_length` records into blocks `BUF_SIZE` times longer in the other
buffer, and the passes stop once one run covers the array, which is then copied to `out` if
the passes left it in `arr`. -/
namespace DistributedSgxSort

variable {α : Type*}

/-- An iter-task whose shard `t` writes block `t` of `size` records at `dst` and nothing
else: the blocks it has finished keep what their shards wrote, and it has changed nothing
outside them. Each shard is given the memory only in that state. -/
theorem iterTask_blocks (f : (ℕ → α) → ℕ → ℕ → α) (dst size length : ℕ) (Q : ℕ → List α → Prop)
    (mem₀ : ℕ → α)
    (hf : ∀ mem t, (∀ p, p < dst ∨ dst + min length (t * size) ≤ p → mem p = mem₀ p) →
      Q t (readRange (f mem t) (dst + t * size) (min size (length - t * size))) ∧
      ∀ p, p < dst + t * size ∨ dst + t * size + min size (length - t * size) ≤ p → f mem t p = mem p)
    (count : ℕ) :
    (∀ t < count,
      Q t (readRange (iterTask f count mem₀) (dst + t * size) (min size (length - t * size)))) ∧
    ∀ p, p < dst ∨ dst + min length (count * size) ≤ p → iterTask f count mem₀ p = mem₀ p := by
  induction count with
  | zero => exact ⟨fun _ h => absurd h (Nat.not_lt_zero _), fun _ _ => rfl⟩
  | succ count ih =>
    obtain ⟨hq, hframe⟩ := hf _ count ih.2
    rw [iterTask_succ, Nat.succ_mul]
    refine ⟨fun t ht => ?_, fun p hp => ?_⟩
    · rcases Nat.lt_succ_iff_lt_or_eq.1 ht with ht | rfl
      · have := Nat.mul_le_mul_right size (Nat.succ_le_of_lt ht)
        rw [Nat.succ_mul] at this
        rw [readRange_congr fun i hi => hframe _ (.inl (by omega))]
        exact ih.1 t ht
      · exact hq
    · rw [hframe p (by omega)]
      exact ih.2 p (by omega)

/-- Blocks of `size` records that are sorted permutations of the blocks of a source make a
permutation of the source made of sorted runs. -/
theorem perm_runsSorted_of_blocks {mem mem₀ : ℕ → Elem} {src dst size length count : ℕ}
    (hcount : length ≤ count * size)
    (h : ∀ t < count,
      (readRange mem (dst + t * size) (min size (length - t * size))).Perm
        (readRange mem₀ (src + t * size) (min size (length - t * size))) ∧
      (readRange mem (dst + t * size) (min size (length - t * size))).Sorted Elem.Le) :
    (readRange mem dst length).Perm (readRange mem₀ src length) ∧ RunsSorted mem dst length size := by
  refine ⟨?_, fun t => ?_⟩
  · rw [← min_eq_left hcount, ← flatMap_readRange_blocks, ← flatMap_readRange_blocks]
    exact List.Perm.flatMap_left _ fun t ht => (h t (List.mem_range.1 ht)).1
  · rcases Nat.lt_or_ge t count with ht | ht
    · exact (h t ht).2
    · have := Nat.mul_le_mul_right size ht
      rw [show min size (length - t * size) = 0 by omega]
      simp [readRange]

theorem RunsSorted.congr {mem mem' : ℕ → Elem} {base length runLength : ℕ}
    (h : ∀ i < length, mem (base + i) = mem' (base + i)) (hs : RunsSorted mem base length runLength) :
    RunsSorted mem' base length runLength := fun j => by
  have e : readRange mem (base + j * runLength) (min runLength (length - j * runLength)) =
      readRange mem' (base + j * runLength) (min runLength (length - j * runLength)) :=
    readRange_congr fun i _ => by rw [Nat.add_assoc]; exact h _ (by omega)
  exact e ▸ hs j

/-! ### The first pass -/

/-- The first pass sorts each block of `BUF_SIZE` records of `arr` in place. -/
theorem firstPass_spec (qsort : RunSort) (arr length : ℕ) (mem : ℕ → Elem) :
    (readRange (iterTask (mergesortFirstPass qsort arr length) (ceilDiv length bufSize) mem) arr
      length).Perm (readRange mem arr length) ∧
    RunsSorted (iterTask (mergesortFirstPass qsort arr length) (ceilDiv length bufSize) mem) arr
      length bufSize ∧
    ∀ p, p < arr ∨ arr + length ≤ p →
      iterTask (mergesortFirstPass qsort arr length) (ceilDiv length bufSize) mem p = mem p := by
  have hcount := le_ceilDiv_mul length (by decide : 0 < bufSize)
  obtain ⟨hblocks, hframe⟩ := iterTask_blocks (mergesortFirstPass qsort arr length) arr bufSize
    length (fun t l => l.Perm (readRange mem (arr + t * bufSize) (min bufSize (length - t * bufSize))) ∧
      l.Sorted Elem.Le) mem (fun m t hm => by
      have hlen : (qsort.sort (readRange m (arr + t * bufSize) (min (length - t * bufSize) bufSize))).length =
          min bufSize (length - t * bufSize) := by
        rw [(qsort.perm _).length_eq, length_readRange, min_comm]
      have hsrc : readRange m (arr + t * bufSize) (min bufSize (length - t * bufSize)) =
          readRange mem (arr + t * bufSize) (min bufSize (length - t * bufSize)) :=
        readRange_congr fun i _ => hm _ (.inr (by omega))
      simp only [mergesortFirstPass]
      refine ⟨?_, fun p hp => writeRange_apply_of_not_mem _ _ _ (by omega)⟩
      rw [← hlen, readRange_writeRange, hlen, min_comm, ← hsrc]
      exact ⟨qsort.perm _, qsort.sorted _⟩) (ceilDiv length bufSize)
  exact ⟨(perm_runsSorted_of_blocks hcount hblocks).1, (perm_runsSorted_of_blocks hcount hblocks).2,
    fun p hp => hframe p (by omega)⟩

/-! ### The merge passes -/

theorem iterTask_mergesortPass (errno : ℕ → ℕ → ℤ) (args : MergesortPassArgs) (count : ℕ)
    (mem : ℕ → Elem) (ret : ℤ) :
    iterTask (mergesortPass (fun _ _ => true) errno args) count (mem, ret) =
      (iterTask (mergeShard args) count mem, ret) := by
  induction count with
  | zero => rfl
  | succ count ih => rw [iterTask_succ, iterTask_succ, ih, mergesortPass_of_mallocOk rfl]

/-- A merge pass turns sorted runs of `run_length` records of `input` into sorted runs of
`run_length * BUF_SIZE` records of `output`, and writes nothing outside `output`. -/
theorem mergePass_spec (args : MergesortPassArgs) (mem : ℕ → Elem)
    (hdisj : args.input + args.length ≤ args.output ∨ args.output + args.length ≤ args.input)
    (hR : 0 < args.runLength) (hsorted : RunsSorted mem args.input args.length args.runLength) :
    (readRange (iterTask (mergeShard args) (ceilDiv args.length (args.runLength * bufSize)) mem)
      args.output args.length).Perm (readRange mem args.input args.length) ∧
    RunsSorted (iterTask (mergeShard args) (ceilDiv args.length (args.runLength * bufSize)) mem)
      args.output args.length (args.runLength * bufSize) ∧
    ∀ p, p < args.output ∨ args.output + args.length ≤ p →
      iterTask (mergeShard args) (ceilDiv args.length (args.runLength * bufSize)) mem p = mem p := by
  have hcount := le_ceilDiv_mul args.length (Nat.mul_pos hR (by decide : 0 < bufSize))
  obtain ⟨hblocks, hframe⟩ := iterTask_blocks (mergeShard args) args.output
    (args.runLength * bufSize) args.length (fun t l =>
      l.Perm (readRange mem (args.input + t * (args.runLength * bufSize))
        (min (args.runLength * bufSize) (args.length - t * (args.runLength * bufSize)))) ∧
      l.Sorted Elem.Le) mem (fun m t hm => by
      have hin : ∀ i < args.length, mem (args.input + i) = m (args.input + i) :=
        fun i _ => (hm _ (by omega)).symm
      obtain ⟨hperm, hsort, hfr⟩ := mergeShard_spec args m t hdisj hR (hsorted.congr hin)
      have hsrc : readRange mem (args.input + t * (args.runLength * bufSize))
          (min (args.runLength * bufSize) (args.length - t * (args.runLength * bufSize))) =
          readRange m (args.input + t * (args.runLength * bufSize))
            (min (args.runLength * bufSize) (args.length - t * (args.runLength * bufSize))) :=
        readRange_congr fun i _ => by rw [Nat.add_assoc]; exact hin _ (by omega)
      rw [← hsrc] at hperm
      exact ⟨⟨hperm, hsort⟩, hfr⟩) _
  exact ⟨(perm_runsSorted_of_blocks hcount hblocks).1, (perm_runsSorted_of_blocks hcount hblocks).2,
    fun p hp => hframe p (by omega)⟩

/-- With fuel for every pass, the merge passes end with one sorted run in one of the two
buffers, a permutation of the first. -/
theorem mergePasses_spec (errno : ℕ → ℕ → ℤ) (length fuel runLength input output : ℕ)
    (mem : ℕ → Elem)
    (hR : 0 < runLength) (hfuel : length ≤ fuel * runLength)
    (hdisj : input + length ≤ output ∨ output + length ≤ input)
    (hsorted : RunsSorted mem input length runLength) :
    (mergePasses (fun _ _ => true) errno length fuel runLength input output mem).1 = 0 ∧
    ((mergePasses (fun _ _ => true) errno length fuel runLength input output mem).2.1 = input ∨
      (mergePasses (fun _ _ => true) errno length fuel runLength input output mem).2.1 = output) ∧
    (readRange (mergePasses (fun _ _ => true) errno length fuel runLength input output mem).2.2
      (mergePasses (fun _ _ => true) errno length fuel runLength input output mem).2.1 length).Perm
        (readRange mem input length) ∧
    (readRange (mergePasses (fun _ _ => true) errno length fuel runLength input output mem).2.2
      (mergePasses (fun _ _ => true) errno length fuel runLength input output mem).2.1 length).Sorted
        Elem.Le ∧
    ∀ p, (p < input ∨ input + length ≤ p) ∧ (p < output ∨ output + length ≤ p) →
      (mergePasses (fun _ _ => true) errno length fuel runLength input output mem).2.2 p = mem p := by
  induction fuel generalizing runLength input output mem with
  | zero =>
    obtain rfl : length = 0 := by simpa using hfuel
    simp [mergePasses, readRange]
  | succ fuel ih =>
    rw [mergePasses]
    split_ifs with hlt
    · rw [iterTask_mergesortPass]
      simp only [ne_eq, not_true_eq_false, if_false]
      obtain ⟨hperm, hruns, hframe⟩ := mergePass_spec ⟨input, output, length, runLength⟩ mem hdisj hR hsorted
      have hfuel' : length ≤ fuel * (runLength * bufSize) := by
        rcases Nat.eq_zero_or_pos fuel with rfl | hf
        · omega
        · have := Nat.le_mul_of_pos_left runLength hf
          rw [Nat.succ_mul] at hfuel
          rw [← Nat.mul_assoc, bufSize]
          omega
      obtain ⟨h1, h2, h3, h4, h5⟩ := ih (runLength * bufSize) output input _
        (Nat.mul_pos hR (by decide)) hfuel' hdisj.symm hruns
      exact ⟨h1, h2.symm, h3.trans hperm, h4, fun p hp => (h5 p hp.symm).trans (hframe p hp.2)⟩
    · have := hsorted 0
      simp only [Nat.zero_mul, Nat.add_zero, Nat.sub_zero, min_eq_right (not_lt.1 hlt)] at this
      exact ⟨rfl, .inl rfl, .refl _, this, fun _ _ => rfl⟩

/-- The final copy of `mergesort`: when the passes return 0 and leave their run in `arr` or in
`out`, `mergesort` returns 0 with that run in `out`, writing nothing else. -/
theorem mergesort_out {qsort : RunSort} {mallocOk : ℕ → ℕ → Bool} {errno : ℕ → ℕ → ℤ}
    {arr out length : ℕ} {mem : ℕ → Elem} (hdisj : arr + length ≤ out ∨ out + length ≤ arr)
    {ret : ℤ} {input : ℕ} {mem₂ : ℕ → Elem}
    (hpass : mergePasses mallocOk errno length length bufSize arr out
      (iterTask (mergesortFirstPass qsort arr length) (ceilDiv length bufSize) mem) =
        (ret, input, mem₂))
    (hret : ret = 0) (hinput : input = arr ∨ input = out) :
    ∃ mem', mergesort qsort mallocOk errno arr out length mem = some (0, mem') ∧
      readRange mem' out length = readRange mem₂ input length ∧
      ∀ p, p < out ∨ out + length ≤ p → mem' p = mem₂ p := by
  subst hret
  by_cases hout : input = out
  · subst hout
    exact ⟨mem₂, by simp [mergesort, hpass], rfl, fun _ _ => rfl⟩
  · obtain rfl : input = arr := hinput.resolve_right hout
    have hw := readRange_writeRange mem₂ out (readRange mem₂ input length)
    rw [length_readRange] at hw
    exact ⟨_, by simp [mergesort, hpass, hout, memcpy, hdisj.symm], hw, fun p hp =>
      writeRange_apply_of_not_mem _ _ _ (by rw [length_readRange]; omega)⟩

/-- With no failed allocation, `mergesort` on two disjoint arrays of `length` records returns
0 and leaves in `out` a permutation of `arr` that is non-decreasing under
`mergesort_comparator`, and writes nothing outside the two arrays. -/
theorem mergesort_sorts (qsort : RunSort) (errno : ℕ → ℕ → ℤ) (arr out length : ℕ)
    (mem : ℕ → Elem) (hdisj : arr + length ≤ out ∨ out + length ≤ arr) :
    ∃ mem', mergesort qsort (fun _ _ => true) errno arr out length mem = some (0, mem') ∧
      (readRange mem' out length).Perm (readRange mem arr length) ∧
      (readRange mem' out length).Sorted Elem.Le ∧
      ∀ p, (p < arr ∨ arr + length ≤ p) ∧ (p < out ∨ out + length ≤ p) → mem' p = mem p := by
  obtain ⟨hperm₁, hruns₁, hframe₁⟩ := firstPass_spec qsort arr length mem
  obtain ⟨hret, hinput, hperm₂, hsort₂, hframe₂⟩ := mergePasses_spec errno length length
    bufSize arr out _ (by decide) (Nat.le_mul_of_pos_right length (by decide)) hdisj hruns₁
  obtain ⟨mem', h, hout, hframe⟩ := mergesort_out hdisj rfl hret hinput
  exact ⟨mem', h, hout ▸ hperm₂.trans hperm₁, hout ▸ hsort₂,
    fun p hp => (hframe p hp.2).trans ((hframe₂ p hp).trans (hframe₁ p hp.1))⟩

theorem mergesort_sorts_three : (0 + 3 ≤ 3 ∨ 3 + 3 ≤ 0) ∧
    ∃ mem', mergesort RunSort.insertion (fun _ _ => true) (fun _ _ => 12) 0 3 3
        (fun p => ⟨3 - p, p, 0⟩) = some (0, mem') ∧
      (readRange mem' 3 3).Perm (readRange (fun p => ⟨3 - p, p, 0⟩) 0 3) ∧
      (readRange mem' 3 3).Sorted Elem.Le ∧
      ∀ p, (p < 0 ∨ 0 + 3 ≤ p) ∧ (p < 3 ∨ 3 + 3 ≤ p) → mem' p = ⟨3 - p, p, 0⟩ :=
  ⟨by decide, mergesort_sorts RunSort.insertion (fun _ _ => 12) 0 3 3 _ (by decide)⟩

/-! ### A failed shard

On a failed `malloc`, `mergesort_pass` calls `__atomic_compare_exchange_n(&args->ret, &ret,
0, …)` with `ret = errno`: it writes `0` into `args->ret` when that already holds the error,
and otherwise only reads it. `args.ret` starts at `0`, so no failure ever reaches it. -/

theorem ceilDiv_eq_one {a b : ℕ} (ha : 0 < a) (hab : a ≤ b) : ceilDiv a b = 1 :=
  Nat.div_eq_of_lt_le (by omega) (by omega)

theorem mergePasses_of_le (mallocOk : ℕ → ℕ → Bool) (errno : ℕ → ℕ → ℤ) {length runLength : ℕ}
    (h : length ≤ runLength) (fuel input output : ℕ) (mem : ℕ → Elem) :
    mergePasses mallocOk errno length fuel runLength input output mem = (0, input, mem) := by
  cases fuel with
  | zero => rfl
  | succ fuel => simp [mergePasses, Nat.not_lt.2 h]

/-- A pass of a single shard whose `malloc` fails leaves the memory as it was and ends the
passes with status 0, the buffers swapped. -/
theorem mergePasses_failed_shard {mallocOk : ℕ → ℕ → Bool} (errno : ℕ → ℕ → ℤ) {length fuel runLength : ℕ}
    (hfuel : 0 < fuel) (hlt : runLength < length) (hle : length ≤ runLength * bufSize)
    (hfail : mallocOk runLength 0 = false) (input output : ℕ) (mem : ℕ → Elem) :
    mergePasses mallocOk errno length fuel runLength input output mem = (0, output, mem) := by
  obtain ⟨fuel, rfl⟩ : ∃ f, fuel = f + 1 := ⟨fuel - 1, by omega⟩
  rw [mergePasses, if_pos hlt, ceilDiv_eq_one (by omega) hle]
  simp [iterTask_succ, mergesortPass, hfail, mergePasses_of_le mallocOk errno hle]

/-- Between `BUF_SIZE` and `BUF_SIZE²` records there is one merge pass, of one shard. When
that shard's `malloc` fails, `mergesort` still returns 0, and `out` holds what it held
before: nothing was merged into it. -/
theorem mergesort_failed_shard (qsort : RunSort) (mallocOk : ℕ → ℕ → Bool) (errno : ℕ → ℕ → ℤ)
    (arr out n : ℕ)
    (mem : ℕ → Elem) (hn : bufSize < n) (hn' : n ≤ bufSize * bufSize)
    (hfail : mallocOk bufSize 0 = false) (hdisj : arr + n ≤ out ∨ out + n ≤ arr) :
    ∃ mem', mergesort qsort mallocOk errno arr out n mem = some (0, mem') ∧
      ∀ p, out ≤ p → p < out + n → mem' p = mem p := by
  obtain ⟨-, -, hframe⟩ := firstPass_spec qsort arr n mem
  have hpass := mergePasses_failed_shard errno (Nat.zero_lt_of_lt hn) hn hn' hfail arr out
    (iterTask (mergesortFirstPass qsort arr n) (ceilDiv n bufSize) mem)
  exact ⟨_, by simp [mergesort, hpass], fun p h₁ h₂ => hframe p (by omega)⟩

theorem mergesort_failed_shard_at_1025 : bufSize < 1025 ∧ 1025 ≤ bufSize * bufSize ∧
    (fun _ _ => false : ℕ → ℕ → Bool) bufSize 0 = false ∧ (0 + 1025 ≤ 1025 ∨ 1025 + 1025 ≤ 0) ∧
    ∃ mem', mergesort RunSort.insertion (fun _ _ => false) (fun _ _ => 12) 0 1025 1025
        (fun _ => ⟨0, 0, 0⟩) =
        some (0, mem') ∧ ∀ p, 1025 ≤ p → p < 1025 + 1025 → mem' p = ⟨0, 0, 0⟩ :=
  ⟨by decide, by decide, rfl, by decide,
    mergesort_failed_shard RunSort.insertion (fun _ _ => false) (fun _ _ => 12) 0 1025 1025 _
      (by decide) (by decide) rfl (by decide)⟩

end DistributedSgxSort
