import Mathlib.GroupTheory.Perm.Basic

/-! The oblivious compaction of `orshuffle.c`: `swap_local_range`, `swap_range` and
`compact`.

Memory is a map from indices to records. A pointer argument `arr + b` is the base index
`b`, which `arr`, `marked` and `marked_prefix_sums` share. The recursion halves the
length and every caller passes a power of two, so a length is written `2 ^ n`. Each
function returns the records and the trace of its accesses: the index pairs handed to
`o_memswap` and the indices of `marked` and `marked_prefix_sums` that it reads. -/
namespace DistributedSgxSort

inductive Event
  | memswap (i j : ℕ)
  | readMarked (i : ℕ)
  | readPrefixSum (i : ℕ)
  | writeMarked (i : ℕ)
  | writePrefixSum (i : ℕ)
  | randRead (size : ℕ)
  | randBit
  deriving DecidableEq, Repr

variable {α : Type*}

/-- `o_memswap(&arr[i], &arr[j], sizeof(*arr), cond)`. -/
def oMemswap (arr : ℕ → α) (i j : ℕ) (cond : Bool) : ℕ → α :=
  if cond then arr ∘ Equiv.swap i j else arr

/-- The first `count` iterations of the loop of `swap_local_range`. -/
def swapLocalLoop (base half : ℕ) (cond : ℕ → Bool) : ℕ → (ℕ → α) → (ℕ → α) × List Event
  | 0, arr => (arr, [])
  | i + 1, arr =>
    let r := swapLocalLoop base half cond i arr
    (oMemswap r.1 (base + i) (base + i + half) (cond i),
      r.2 ++ [.memswap (base + i) (base + i + half)])

/-- `swap_local_range(arr + base, length, offset, left_marked_count)`. -/
def swapLocalRange (base length offset leftMarkedCount : ℕ) (arr : ℕ → α) :
    (ℕ → α) × List Event :=
  let half := length / 2
  let s := decide (half ≤ offset % half + leftMarkedCount) != decide (half ≤ offset)
  swapLocalLoop base half (fun i => s != decide ((offset + leftMarkedCount) % half ≤ i)) half arr

/-- `swap_range`: the whole range is local. -/
def swapRange (base length offset leftMarkedCount : ℕ) (arr : ℕ → α) : (ℕ → α) × List Event :=
  swapLocalRange base length offset leftMarkedCount arr

/-- `compact(arr + base, marked + base, marked_prefix_sums + base, 2 ^ n, offset)`. -/
def compact (marked : ℕ → Bool) (markedPrefixSums : ℕ → ℕ) :
    ℕ → ℕ → ℕ → (ℕ → α) → (ℕ → α) × List Event
  | 0, _, _, arr => (arr, [])
  | 1, base, offset, arr =>
    let cond := (!marked base && marked (base + 1)) != decide (offset ≠ 0)
    (oMemswap arr base (base + 1) cond,
      [.readMarked base, .readMarked (base + 1), .memswap base (base + 1)])
  | n + 2, base, offset, arr =>
    let half := 2 ^ (n + 1)
    let leftMarkedCount :=
      markedPrefixSums (base + (half - 1)) - markedPrefixSums base + (marked base).toNat
    let l := compact marked markedPrefixSums (n + 1) base (offset % half) arr
    let r := compact marked markedPrefixSums (n + 1) (base + half)
      ((offset + leftMarkedCount) % half) l.1
    let s := swapRange base (2 ^ (n + 2)) offset leftMarkedCount r.1
    (s.1, [.readPrefixSum (base + (half - 1)), .readPrefixSum base, .readMarked base] ++
      l.2 ++ r.2 ++ s.2)

/-! ### Traces -/

theorem swapLocalLoop_snd (base half : ℕ) (cond : ℕ → Bool) (count : ℕ) (arr : ℕ → α) :
    (swapLocalLoop base half cond count arr).2 =
      (List.range count).map fun i => .memswap (base + i) (base + i + half) := by
  induction count with
  | zero => rfl
  | succ i ih => simp [swapLocalLoop, ih, List.range_succ]

/-- The trace of `compact` on `2 ^ n` records at `base`: a function of `n` and `base`. -/
def compactTrace : ℕ → ℕ → List Event
  | 0, _ => []
  | 1, base => [.readMarked base, .readMarked (base + 1), .memswap base (base + 1)]
  | n + 2, base =>
    [.readPrefixSum (base + (2 ^ (n + 1) - 1)), .readPrefixSum base, .readMarked base] ++
      compactTrace (n + 1) base ++ compactTrace (n + 1) (base + 2 ^ (n + 1)) ++
      (List.range (2 ^ (n + 1))).map fun i => .memswap (base + i) (base + i + 2 ^ (n + 1))

theorem compact_snd (marked : ℕ → Bool) (markedPrefixSums : ℕ → ℕ) (n base offset : ℕ)
    (arr : ℕ → α) : (compact marked markedPrefixSums n base offset arr).2 = compactTrace n base := by
  induction n using Nat.strongRecOn generalizing base offset arr with
  | _ n ih =>
    match n with
    | 0 => rfl
    | 1 => rfl
    | n + 2 =>
      simp only [compact, compactTrace, swapRange, swapLocalRange, swapLocalLoop_snd,
        ih (n + 1) (by omega), Nat.pow_succ, Nat.mul_div_cancel _ (by omega : 0 < 2)]

/-! ### The permutation applied by `compact` -/

/-- The permutation of the first `count` iterations of the `swap_local_range` loop. -/
def rangeSwap (base half : ℕ) (cond : ℕ → Bool) : ℕ → Equiv.Perm ℕ
  | 0 => 1
  | i + 1 => rangeSwap base half cond i *
      if cond i then Equiv.swap (base + i) (base + i + half) else 1

theorem oMemswap_eq (arr : ℕ → α) (i j : ℕ) (cond : Bool) :
    oMemswap arr i j cond = arr ∘ ⇑(if cond then Equiv.swap i j else 1) := by
  cases cond <;> rfl

theorem swapLocalLoop_fst (base half : ℕ) (cond : ℕ → Bool) (count : ℕ) (arr : ℕ → α) :
    (swapLocalLoop base half cond count arr).1 = arr ∘ rangeSwap base half cond count := by
  induction count with
  | zero => rfl
  | succ i ih => simp only [swapLocalLoop, ih, oMemswap_eq, rangeSwap, Equiv.Perm.coe_mul]; rfl

theorem rangeSwap_succ_apply (base half : ℕ) (cond : ℕ → Bool) (i p : ℕ) :
    rangeSwap base half cond (i + 1) p = rangeSwap base half cond i
      (if cond i then Equiv.swap (base + i) (base + i + half) p else p) := by
  rw [rangeSwap, Equiv.Perm.mul_apply]
  split_ifs <;> rfl

/-- Positions outside the two swapped blocks stay in place. -/
theorem rangeSwap_of_not_mem (base half : ℕ) (cond : ℕ → Bool) {count p : ℕ}
    (hl : ¬(base ≤ p ∧ p < base + count)) (hr : ¬(base + half ≤ p ∧ p < base + half + count)) :
    rangeSwap base half cond count p = p := by
  induction count with
  | zero => rfl
  | succ i ih =>
    rw [rangeSwap_succ_apply, Equiv.swap_apply_of_ne_of_ne (by omega) (by omega), ite_self,
      ih (by omega) (by omega)]

theorem rangeSwap_left (base half : ℕ) (cond : ℕ → Bool) {count i : ℕ} (hc : count ≤ half)
    (hi : i < count) : rangeSwap base half cond count (base + i) =
      if cond i then base + i + half else base + i := by
  induction count with
  | zero => omega
  | succ c ih =>
    rw [rangeSwap_succ_apply]
    rcases Nat.lt_or_ge i c with h | h
    · rw [Equiv.swap_apply_of_ne_of_ne (by omega) (by omega), ite_self, ih (by omega) h]
    · obtain rfl : i = c := by omega
      by_cases hc' : cond i
      · rw [if_pos hc', if_pos hc', Equiv.swap_apply_left,
          rangeSwap_of_not_mem _ _ _ (by omega) (by omega)]
      · rw [if_neg hc', if_neg hc', rangeSwap_of_not_mem _ _ _ (by omega) (by omega)]

theorem rangeSwap_right (base half : ℕ) (cond : ℕ → Bool) {count i : ℕ} (hc : count ≤ half)
    (hi : i < count) : rangeSwap base half cond count (base + i + half) =
      if cond i then base + i else base + i + half := by
  induction count with
  | zero => omega
  | succ c ih =>
    rw [rangeSwap_succ_apply]
    rcases Nat.lt_or_ge i c with h | h
    · rw [Equiv.swap_apply_of_ne_of_ne (by omega) (by omega), ite_self, ih (by omega) h]
    · obtain rfl : i = c := by omega
      by_cases hc' : cond i
      · rw [if_pos hc', if_pos hc', Equiv.swap_apply_right,
          rangeSwap_of_not_mem _ _ _ (by omega) (by omega)]
      · rw [if_neg hc', if_neg hc', rangeSwap_of_not_mem _ _ _ (by omega) (by omega)]

/-- Where the swap step of a `2 * half` range takes relative position `q` from. -/
def swapSource (half : ℕ) (cond : ℕ → Bool) (q : ℕ) : ℕ :=
  if q < half then (if cond q then q + half else q) else (if cond (q - half) then q - half else q)

theorem rangeSwap_half (base half : ℕ) (cond : ℕ → Bool) {q : ℕ} (hq : q < 2 * half) :
    rangeSwap base half cond half (base + q) = base + swapSource half cond q := by
  unfold swapSource
  split_ifs with h1 h2 h2
  · rw [rangeSwap_left _ _ _ le_rfl h1, if_pos h2]; omega
  · rw [rangeSwap_left _ _ _ le_rfl h1, if_neg h2]
  · rw [show base + q = base + (q - half) + half by omega,
      rangeSwap_right _ _ _ le_rfl (by omega), if_pos h2]
  · rw [show base + q = base + (q - half) + half by omega,
      rangeSwap_right _ _ _ le_rfl (by omega), if_neg h2]

/-! ### Offsets

The swap step of `compact` sends the `k`-th marked record of the whole range to
`(offset + k) mod length`, given where the two recursive calls left it. -/

theorem mod_cases {x m : ℕ} (hx : x < 2 * m) :
    (x < m ∧ x % m = x) ∨ (m ≤ x ∧ x % m + m = x) := by
  rcases Nat.lt_or_ge x m with h | h
  · exact .inl ⟨h, Nat.mod_eq_of_lt h⟩
  · refine .inr ⟨h, ?_⟩
    rw [Nat.mod_eq_sub_mod h, Nat.mod_eq_of_lt (by omega)]
    omega

theorem bne_decide (P Q : Prop) [Decidable P] [Decidable Q] :
    (decide P != decide Q) = decide (¬(P ↔ Q)) := by
  by_cases P <;> by_cases Q <;> simp_all

/-- The condition of `swap_local_range` on a range of `2 * half` records. -/
def swapCond (half offset leftMarkedCount : ℕ) (i : ℕ) : Bool :=
  (decide (half ≤ offset % half + leftMarkedCount) != decide (half ≤ offset)) !=
    decide ((offset + leftMarkedCount) % half ≤ i)

theorem swapSource_left {half z lm k : ℕ} (hz : z < 2 * half) (hlm : lm ≤ half) (hk : k < lm) :
    swapSource half (swapCond half z lm) ((z + k) % (2 * half)) = (z % half + k) % half := by
  have hzlm : (z + lm) % half = (z % half + lm) % half := (Nat.mod_add_mod z half lm).symm
  simp only [swapSource, swapCond, hzlm, bne_decide, decide_eq_true_eq]
  have m1 := mod_cases hz
  have m2 := mod_cases (x := z % half + lm) (m := half) (by omega)
  have m3 := mod_cases (x := z + k) (m := 2 * half) (by omega)
  have m4 := mod_cases (x := z % half + k) (m := half) (by omega)
  generalize (z % half + lm) % half = a at *
  generalize (z % half + k) % half = b at *
  generalize (z + k) % (2 * half) = c at *
  generalize z % half = d at *
  split_ifs <;> omega

theorem swapSource_right {half z lm k : ℕ} (hz : z < 2 * half) (hlm : lm ≤ half)
    (hk : lm ≤ k) (hk' : k < lm + half) :
    swapSource half (swapCond half z lm) ((z + k) % (2 * half)) =
      half + ((z + lm) % half + (k - lm)) % half := by
  have hzlm : (z + lm) % half = (z % half + lm) % half := (Nat.mod_add_mod z half lm).symm
  simp only [swapSource, swapCond, hzlm, bne_decide, decide_eq_true_eq]
  have m1 := mod_cases hz
  have m2 := mod_cases (x := z % half + lm) (m := half) (by omega)
  have m3 := mod_cases (x := z + k) (m := 2 * half) (by omega)
  generalize (z % half + lm) % half = a at *
  have m4 := mod_cases (x := a + (k - lm)) (m := half) (by omega)
  generalize (a + (k - lm)) % half = b at *
  generalize (z + k) % (2 * half) = c at *
  generalize z % half = d at *
  split_ifs <;> omega

/-! ### Marks -/

/-- The positions, relative to `base`, of the marked records among `length`. -/
def markedIdx (marked : ℕ → Bool) (base length : ℕ) : List ℕ :=
  (List.range length).filter fun i => marked (base + i)

theorem markedIdx_add (marked : ℕ → Bool) (base a b : ℕ) :
    markedIdx marked base (a + b) =
      markedIdx marked base a ++ (markedIdx marked (base + a) b).map (a + ·) := by
  simp [markedIdx, List.range_add, List.filter_append, List.filter_map, Function.comp_def,
    Nat.add_assoc]

theorem markedIdx_one (marked : ℕ → Bool) (base : ℕ) :
    (markedIdx marked base 1).length = (marked base).toNat := by
  cases h : marked base <;> simp [markedIdx, List.range_succ, List.filter_cons, h]

/-- `marked_prefix_sums[i] = marked_prefix_sums[i - 1] + marked[i]` for `0 < i < length`;
`marked_prefix_sums[0]` is unconstrained. -/
def PrefixSums (marked : ℕ → Bool) (markedPrefixSums : ℕ → ℕ) (base length : ℕ) : Prop :=
  ∀ i, i < length → 0 < i →
    markedPrefixSums (base + i) = markedPrefixSums (base + (i - 1)) + (marked (base + i)).toNat

instance (marked : ℕ → Bool) (markedPrefixSums : ℕ → ℕ) (base length : ℕ) :
    Decidable (PrefixSums marked markedPrefixSums base length) :=
  inferInstanceAs (Decidable (∀ i, i < length → 0 < i → _))

variable {marked : ℕ → Bool} {markedPrefixSums : ℕ → ℕ}

theorem PrefixSums.count {base length : ℕ} (h : PrefixSums marked markedPrefixSums base length)
    {i : ℕ} (hi : i < length) : markedPrefixSums (base + i) + (marked base).toNat =
      markedPrefixSums base + (markedIdx marked base (i + 1)).length := by
  induction i with
  | zero => simp [markedIdx_one]
  | succ i ih =>
    rw [h (i + 1) hi (by omega), markedIdx_add marked base (i + 1) 1, List.length_append,
      List.length_map, markedIdx_one, Nat.add_sub_cancel, ← Nat.add_assoc]
    have := ih (by omega)
    omega

/-- `left_marked_count` counts the marks of the left half. -/
theorem PrefixSums.leftMarkedCount {base half : ℕ}
    (h : PrefixSums marked markedPrefixSums base (half + half)) (hh : 0 < half) :
    markedPrefixSums (base + (half - 1)) - markedPrefixSums base + (marked base).toNat =
      (markedIdx marked base half).length := by
  have h1 := h.count (i := half - 1) (by omega)
  have h2 : (marked base).toNat ≤ (markedIdx marked base half).length := by
    rw [← markedIdx_one, show half = 1 + (half - 1) by omega, markedIdx_add, List.length_append]
    omega
  rw [Nat.sub_add_cancel hh] at h1
  omega

theorem PrefixSums.left {base half : ℕ} (h : PrefixSums marked markedPrefixSums base (half + half)) :
    PrefixSums marked markedPrefixSums base half :=
  fun i hi hi' => h i (by omega) hi'

theorem PrefixSums.right {base half : ℕ} (h : PrefixSums marked markedPrefixSums base (half + half)) :
    PrefixSums marked markedPrefixSums (base + half) half := by
  intro i hi' hi
  have := h (half + i) (by omega) (by omega)
  rwa [← Nat.add_assoc, show half + i - 1 = half + (i - 1) by omega, ← Nat.add_assoc] at this

theorem markedIdx_length_le (marked : ℕ → Bool) (base length : ℕ) :
    (markedIdx marked base length).length ≤ length :=
  (List.length_filter_le _ _).trans (List.length_range length).le

theorem lt_of_mem_markedIdx {marked : ℕ → Bool} {base length i : ℕ}
    (h : i ∈ markedIdx marked base length) : i < length := by
  simpa [markedIdx] using (List.mem_filter.1 h).1

/-! ### Correctness of `compact` -/

theorem compact_succ_succ_fst (marked : ℕ → Bool) (markedPrefixSums : ℕ → ℕ)
    (n base offset : ℕ) (arr : ℕ → α) :
    let half := 2 ^ (n + 1)
    let lm := markedPrefixSums (base + (half - 1)) - markedPrefixSums base + (marked base).toNat
    (compact marked markedPrefixSums (n + 2) base offset arr).1 =
      (compact marked markedPrefixSums (n + 1) (base + half) ((offset + lm) % half)
        (compact marked markedPrefixSums (n + 1) base (offset % half) arr).1).1 ∘
      rangeSwap base half (swapCond half offset lm) half := by
  intro half lm
  have : 2 ^ (n + 2) / 2 = half := by rw [pow_succ, Nat.mul_div_cancel _ (by omega)]
  simp only [compact, swapRange, swapLocalRange, swapLocalLoop_fst, this]
  rfl

/-- `compact` permutes the records of its range. With consistent prefix sums and an
offset below the length, it sends the `k`-th marked record to `(offset + k) mod length`. -/
theorem compact_spec (marked : ℕ → Bool) (markedPrefixSums : ℕ → ℕ) (n base offset : ℕ)
    (arr : ℕ → α) :
    ∃ σ : Equiv.Perm ℕ, (compact marked markedPrefixSums n base offset arr).1 = arr ∘ σ ∧
      (∀ p, p < base ∨ base + 2 ^ n ≤ p → σ p = p) ∧
      (PrefixSums marked markedPrefixSums base (2 ^ n) → offset < 2 ^ n →
        ∀ k (hk : k < (markedIdx marked base (2 ^ n)).length),
          σ (base + (offset + k) % 2 ^ n) = base + (markedIdx marked base (2 ^ n))[k]) := by
  induction n using Nat.strongRecOn generalizing base offset arr with
  | _ n ih =>
    match n with
    | 0 =>
      refine ⟨1, rfl, fun _ _ => rfl, fun _ _ k hk => ?_⟩
      have := lt_of_mem_markedIdx (List.getElem_mem hk)
      simp only [pow_zero, Nat.mod_one, Nat.add_zero, Equiv.Perm.one_apply] at this ⊢
      omega
    | 1 =>
      refine ⟨if (!marked base && marked (base + 1)) != decide (offset ≠ 0) then
        Equiv.swap base (base + 1) else 1, oMemswap_eq _ _ _ _, fun p hp => ?_, ?_⟩
      · split_ifs
        · exact Equiv.swap_apply_of_ne_of_ne (by omega) (by omega)
        · rfl
      · intro _ hz k hk
        have hk2 : k < 2 := hk.trans_le (markedIdx_length_le _ _ _)
        obtain rfl | rfl : offset = 0 ∨ offset = 1 := by omega
        all_goals
          obtain rfl | rfl : k = 0 ∨ k = 1 := by omega
          all_goals
            cases h0 : marked base <;> cases h1 : marked (base + 1) <;>
              simp [markedIdx, List.range_succ, List.filter_cons, h0, h1] at hk ⊢
    | n + 2 =>
      have hpos : 0 < 2 ^ (n + 1) := Nat.two_pow_pos _
      have hh : 2 ^ (n + 2) = 2 ^ (n + 1) + 2 ^ (n + 1) := by rw [pow_succ]; omega
      obtain ⟨σL, hL, hLo, hLm⟩ := ih (n + 1) (by omega) base (offset % 2 ^ (n + 1)) arr
      obtain ⟨σR, hR, hRo, hRm⟩ := ih (n + 1) (by omega) (base + 2 ^ (n + 1))
        ((offset + (markedPrefixSums (base + (2 ^ (n + 1) - 1)) - markedPrefixSums base +
          (marked base).toNat)) % 2 ^ (n + 1))
        (compact marked markedPrefixSums (n + 1) base (offset % 2 ^ (n + 1)) arr).1
      refine ⟨σL * σR * rangeSwap base (2 ^ (n + 1)) (swapCond (2 ^ (n + 1)) offset
        (markedPrefixSums (base + (2 ^ (n + 1) - 1)) - markedPrefixSums base +
          (marked base).toNat)) (2 ^ (n + 1)), ?_, fun p hp => ?_, fun hps hz k hk => ?_⟩
      · rw [compact_succ_succ_fst, hR, hL]
        rfl
      · rw [Equiv.Perm.mul_apply, Equiv.Perm.mul_apply,
          rangeSwap_of_not_mem _ _ _ (by omega) (by omega), hRo p (by omega), hLo p (by omega)]
      · rw [hh] at hps hz
        have hlm := hps.leftMarkedCount hpos
        generalize markedPrefixSums (base + (2 ^ (n + 1) - 1)) - markedPrefixSums base +
          (marked base).toNat = lm at hlm hRm ⊢
        generalize 2 ^ (n + 1) = half at *
        subst hlm
        simp only [hh, markedIdx_add, List.length_append, List.length_map] at hk ⊢
        have hLh := markedIdx_length_le marked base half
        have hRh := markedIdx_length_le marked (base + half) half
        rw [Equiv.Perm.mul_apply, Equiv.Perm.mul_apply,
          show (offset + k) % (half + half) = (offset + k) % (2 * half) by rw [Nat.two_mul],
          rangeSwap_half _ _ _ (Nat.mod_lt _ (by omega))]
        rcases Nat.lt_or_ge k (markedIdx marked base half).length with hk' | hk'
        · rw [swapSource_left (by omega) hLh hk', hRo _ (.inl (by
            have := Nat.mod_lt (offset % half + k) hpos; omega)),
            hLm hps.left (Nat.mod_lt _ hpos) k hk', List.getElem_append_left hk']
        · rw [swapSource_right (by omega) hLh hk' (by omega), ← Nat.add_assoc,
            hRm hps.right (Nat.mod_lt _ hpos) _ (by omega), hLo _ (.inr (by omega)),
            List.getElem_append_right (by simpa using hk'), List.getElem_map]
          omega

/-- On `L = 2 ^ (n + 1)` records with consistent prefix sums and an offset `z < L`,
`compact` permutes the records and moves the `k`-th marked one to `(z + k) mod L`. With
`z = 0` and `L / 2` marks, the unmarked records fill `[L / 2, L)`. -/
theorem compact_places_marked (n : ℕ) (arr : ℕ → α) (marked : ℕ → Bool)
    (markedPrefixSums : ℕ → ℕ) (hps : PrefixSums marked markedPrefixSums 0 (2 ^ (n + 1)))
    (z : ℕ) (hz : z < 2 ^ (n + 1)) :
    ∃ σ : Equiv.Perm ℕ, (compact marked markedPrefixSums (n + 1) 0 z arr).1 = arr ∘ σ ∧
      (∀ p, 2 ^ (n + 1) ≤ p → σ p = p) ∧
      (∀ k (hk : k < (markedIdx marked 0 (2 ^ (n + 1))).length),
        σ ((z + k) % 2 ^ (n + 1)) = (markedIdx marked 0 (2 ^ (n + 1)))[k]) ∧
      (z = 0 → (markedIdx marked 0 (2 ^ (n + 1))).length = 2 ^ n →
        ∀ p, 2 ^ n ≤ p → p < 2 ^ (n + 1) → marked (σ p) = false) := by
  obtain ⟨σ, hσ, hout, hm⟩ := compact_spec marked markedPrefixSums (n + 1) 0 z arr
  have hm' := hm hps hz
  simp only [Nat.zero_add] at hout hm'
  refine ⟨σ, hσ, fun p hp => hout p (.inr hp), hm', ?_⟩
  rintro rfl hc p hp hp'
  by_contra hmk
  have hlt : σ p < 2 ^ (n + 1) := by
    by_contra hge
    have := σ.injective (hout (σ p) (.inr (by omega)))
    omega
  have hmem : σ p ∈ markedIdx marked 0 (2 ^ (n + 1)) := by
    simpa [markedIdx, hlt] using hmk
  obtain ⟨k, hk, hkp⟩ := List.mem_iff_getElem.1 hmem
  have := hm' k hk
  rw [hkp, Nat.zero_add, Nat.mod_eq_of_lt (by omega)] at this
  have := σ.injective this
  omega

/-- The example of the spec: `L = 8`, marks `[1,0,1,1,0,0,1,0]`, offset `0`. -/
theorem compact_places_marked_eight :
    PrefixSums (fun i => decide (i ∈ [0, 2, 3, 6])) (fun i => ([1, 1, 2, 3, 3, 3, 4, 4] : List ℕ)[i]?.getD 0) 0 (2 ^ 3) ∧
    ∃ σ : Equiv.Perm ℕ, (compact (fun i => decide (i ∈ [0, 2, 3, 6]))
        (fun i => ([1, 1, 2, 3, 3, 3, 4, 4] : List ℕ)[i]?.getD 0) 3 0 0 id).1 = σ ∧
      (∀ p, 2 ^ 3 ≤ p → σ p = p) ∧
      (∀ k (hk : k < (markedIdx (fun i => decide (i ∈ [0, 2, 3, 6])) 0 (2 ^ 3)).length),
        σ ((0 + k) % 2 ^ 3) = (markedIdx (fun i => decide (i ∈ [0, 2, 3, 6])) 0 (2 ^ 3))[k]) ∧
      (0 = 0 → (markedIdx (fun i => decide (i ∈ [0, 2, 3, 6])) 0 (2 ^ 3)).length = 2 ^ 2 →
        ∀ p, 2 ^ 2 ≤ p → p < 2 ^ 3 → decide (σ p ∈ [0, 2, 3, 6]) = false) := by
  have hps : PrefixSums (fun i => decide (i ∈ [0, 2, 3, 6]))
      (fun i => ([1, 1, 2, 3, 3, 3, 4, 4] : List ℕ)[i]?.getD 0) 0 (2 ^ 3) := by decide
  exact ⟨hps, compact_places_marked 2 id _ _ hps 0 (by decide)⟩

end DistributedSgxSort
