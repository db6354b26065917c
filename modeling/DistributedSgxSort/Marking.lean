import DistributedSgxSort.Shuffle
import Mathlib.Data.Finset.Card

/-! The marking loop of `shuffle`. Record `r` of the `L` records is marked when its draw
`((uint64_t) coins[r] * total_left) >> 32`, with `total_left = L - r`, is at least
`num_to_mark - marked_so_far`; `marked_prefix_sums[r]` is then `marked_so_far`.

Whatever the coins, the prefix sums count the marks. The comparison is the reverse of
selection sampling, which marks when the draw is below the marks still owed, so the number
of marks is not `L / 2`: all-zero coins mark nothing, and all-ones coins mark `L / 2 + 1`
records, `marked_so_far` passing `num_to_mark` and `num_to_mark - marked_so_far` wrapping. -/
namespace DistributedSgxSort

variable {α : Type*}

/-- `|{i < k : marked[base + i]}|`. -/
def markedCount (marked : ℕ → Bool) (base k : ℕ) : ℕ :=
  ((Finset.range k).filter fun i => marked (base + i)).card

theorem markedCount_succ (marked : ℕ → Bool) (base k : ℕ) :
    markedCount marked base (k + 1) = markedCount marked base k + (marked (base + k)).toNat := by
  unfold markedCount
  rw [Finset.range_succ, Finset.filter_insert]
  cases h : marked (base + k)
  · simp
  · rw [if_pos rfl, Finset.card_insert_of_not_mem (by simp)]
    rfl

theorem markedCount_update {marked : ℕ → Bool} {base k r : ℕ} (hk : k ≤ r) (b : Bool) :
    markedCount (Function.update marked (base + r) b) base k = markedCount marked base k :=
  congrArg Finset.card (Finset.filter_congr fun i hi => by
    rw [Function.update_noteq (by simp at hi; omega)])

/-! ### One induction for the whole loop -/

section Induction

variable (draw : ℕ → ℕ → ℕ) (base length : ℕ)
  (Q : ℕ → ℕ → (ℕ → Bool) → (ℕ → ℕ) → Prop)
  (hstep : ∀ r ms marked sums c, r < length → Q r ms marked sums →
    Q (r + 1) (ms + (decide (sizeSub (length / 2) ms ≤ draw c (length - r))).toNat)
      (Function.update marked (base + r) (decide (sizeSub (length / 2) ms ≤ draw c (length - r))))
      (Function.update sums (base + r)
        (ms + (decide (sizeSub (length / 2) ms ≤ draw c (length - r))).toNat)))
include hstep

/-- `Q` of `(records done, marked_so_far, marked, marked_prefix_sums)` at `total_left`. -/
def MarkAt (r : ℕ) (m : MarkState α) : Prop :=
  m.1 = length - r ∧ Q r m.2.1 m.2.2.marked m.2.2.markedPrefixSums

theorem markLoop_induction (i c0 : ℕ) :
    ∀ (count : ℕ) (m : MarkState α), i + count ≤ length → MarkAt length Q i m →
      MarkAt length Q (i + count) (markLoop draw (length / 2) base i c0 count m)
  | 0, _, _, h => h
  | count + 1, m, hc, h => by
    obtain ⟨h₁, h₂⟩ := markLoop_induction i c0 count m (by omega) h
    exact ⟨by simp only [markLoop, markStep, h₁]; omega,
      by simpa only [markLoop, markStep, h₁, Nat.add_assoc] using
        hstep (i + count) _ _ _ (c0 + count) (by omega) h₂⟩

theorem markChunks_induction :
    ∀ (t : ℕ) (m : MarkState α), MarkAt length Q 0 m →
      MarkAt length Q (min length (t * markCoins)) (markChunks draw (length / 2) base length t m)
  | 0, m, h => by simpa using h
  | t + 1, m, h => by
    have ih := markChunks_induction t m h
    simp only [markChunks]
    generalize markChunks draw (length / 2) base length t m = m' at ih
    obtain ⟨tl, ms, st⟩ := m'
    by_cases ht : t * markCoins ≤ length
    · rw [min_eq_right ht] at ih
      have := markLoop_induction draw base length Q hstep (t * markCoins) st.coinIdx
        (min (length - t * markCoins) markCoins) (tl, ms, { st with
          coinIdx := st.coinIdx + min (length - t * markCoins) markCoins
          trace := st.trace ++ [.randRead (min (length - t * markCoins) markCoins * 4)] })
        (by omega) ih
      have e : min length ((t + 1) * markCoins) =
          t * markCoins + min (length - t * markCoins) markCoins := by
        rw [Nat.succ_mul]
        omega
      rw [e]
      exact this
    · rw [min_eq_left (by omega)] at ih
      rw [min_eq_left (by rw [Nat.succ_mul]; omega), show length - t * markCoins = 0 by omega]
      exact ih

/-- What every record's step keeps holds of the whole loop: `Q` of `length` records, for
the final `marked_so_far`. -/
theorem markAll_induction (st : ShuffleState α) (h0 : Q 0 0 st.marked st.markedPrefixSums) :
    ∃ ms, Q length ms (markAll draw base length st).marked
      (markAll draw base length st).markedPrefixSums := by
  have h := markChunks_induction draw base length Q hstep ((length + markCoins - 1) / markCoins)
    (length, 0, st) ⟨by omega, h0⟩
  rw [min_eq_left (by unfold markCoins; omega)] at h
  exact ⟨_, h.2⟩

end Induction

/-! ### The prefix sums count the marks -/

/-- For every coin sequence, `marked_prefix_sums[k] = |{i ≤ k : marked[i]}|` for `k < L`. -/
theorem markAll_prefixSums (draw : ℕ → ℕ → ℕ) (base length : ℕ) (st : ShuffleState α) :
    ∀ k < length, (markAll draw base length st).markedPrefixSums (base + k) =
      markedCount (markAll draw base length st).marked base (k + 1) := by
  obtain ⟨_, -, h⟩ := markAll_induction draw base length
    (fun r ms marked sums => ms = markedCount marked base r ∧
      ∀ k < r, sums (base + k) = markedCount marked base (k + 1))
    (fun r ms marked sums c _ ⟨hms, hsums⟩ => by
      refine ⟨by rw [markedCount_succ, markedCount_update le_rfl, hms, Function.update_same],
        fun k hk => ?_⟩
      rcases Nat.lt_succ_iff_lt_or_eq.1 hk with hk | rfl
      · rw [Function.update_noteq (by omega), markedCount_update hk, hsums k hk]
      · rw [Function.update_same, markedCount_succ, markedCount_update le_rfl,
          Function.update_same, hms])
    st ⟨by simp [markedCount], fun _ h => absurd h (Nat.not_lt_zero _)⟩
  exact h

/-! ### The number of marks -/

/-- The marking loop of `shuffle coins bits` on `length` records at `base`. -/
def shuffleMarking (coins : ℕ → UInt32) (base length : ℕ) (st : ShuffleState α) :
    ShuffleState α :=
  markAll (fun k totalLeft => markingDraw (coins k) totalLeft) base length st

theorem markingDraw_zero (totalLeft : ℕ) : markingDraw 0 totalLeft = 0 := by
  simp [markingDraw]

/-- With every coin bit set the draw is `total_left - 1`, the largest it can be. -/
theorem markingDraw_max {totalLeft : ℕ} (h₀ : 0 < totalLeft) (h : totalLeft ≤ 2 ^ 32) :
    markingDraw 4294967295 totalLeft = totalLeft - 1 := by
  unfold markingDraw
  rw [show (4294967295 : UInt32).toNat = 4294967295 from rfl, Nat.mod_eq_of_lt (by omega)]
  exact Nat.div_eq_of_lt_le (by omega) (by omega)

theorem sizeSub_of_le {a b : ℕ} (h : b ≤ a) (ha : a < 2 ^ 64) : sizeSub a b = a - b := by
  unfold sizeSub
  omega

section Miscount

variable {length : ℕ} (hL : 2 ≤ length) (hL' : length ≤ 2 ^ 32) (base : ℕ) (st : ShuffleState α)
include hL hL'

/-- All-zero coins: every draw is 0, below `num_to_mark - 0 = L / 2`, so no record is marked. -/
theorem shuffleMarking_zero_coins :
    markedCount (shuffleMarking (fun _ => 0) base length st).marked base length = 0 := by
  unfold shuffleMarking
  obtain ⟨_, -, h⟩ := markAll_induction (fun _ totalLeft => markingDraw 0 totalLeft) base length
    (fun r ms marked _ => ms = 0 ∧ ∀ k < r, marked (base + k) = false)
    (fun r ms marked sums c _ ⟨hms, hk⟩ => by
      subst hms
      have hcur : decide (sizeSub (length / 2) 0 ≤ markingDraw 0 (length - r)) = false := by
        rw [markingDraw_zero, sizeSub_of_le (Nat.zero_le _) (by omega)]
        exact decide_eq_false (by omega)
      rw [hcur]
      refine ⟨rfl, fun k hk' => ?_⟩
      rcases Nat.lt_succ_iff_lt_or_eq.1 hk' with hk' | rfl
      · rw [Function.update_noteq (by omega), hk k hk']
      · exact Function.update_same _ _ _)
    st ⟨rfl, fun _ h => absurd h (Nat.not_lt_zero _)⟩
  exact Finset.card_eq_zero.2 (Finset.filter_false_of_mem fun k hk => by
    simp [h k (Finset.mem_range.1 hk)])

/-- All-ones coins: every draw is `total_left - 1`, so the first `L / 2 + 1` records are
marked, the last of them when `num_to_mark - marked_so_far` is already 0; after it the
subtraction wraps to `2^64 - 1` and no draw reaches it. -/
theorem shuffleMarking_max_coins :
    markedCount (shuffleMarking (fun _ => 4294967295) base length st).marked base length =
      length / 2 + 1 := by
  unfold shuffleMarking
  obtain ⟨ms, hms, h⟩ := markAll_induction
    (fun _ totalLeft => markingDraw 4294967295 totalLeft) base length
    (fun r ms marked _ => ms = min r (length / 2 + 1) ∧ markedCount marked base r = ms)
    (fun r ms marked sums c hr ⟨hms, hcount⟩ => by
      subst hms
      beta_reduce
      rw [markingDraw_max (by omega) (by omega)]
      have hcur : decide (sizeSub (length / 2) (min r (length / 2 + 1)) ≤ length - r - 1) =
          decide (r ≤ length / 2) := decide_eq_decide.2 (by unfold sizeSub; omega)
      rw [hcur, markedCount_succ, markedCount_update le_rfl, hcount, Function.update_same]
      refine ⟨?_, rfl⟩
      by_cases hle : r ≤ length / 2 <;> simp [hle] <;> omega)
    st ⟨by simp, by simp [markedCount]⟩
  rw [h, hms]
  omega

end Miscount

/-- On `L = 2^n` records, `4 ≤ L ≤ 2^32`, the marking loop of `shuffle` does not mark `L / 2`
positions: all-zero coins mark none, and all-ones coins mark `L / 2 + 1`, which
`marked_prefix_sums[L - 1]`, the final `marked_so_far`, records above `num_to_mark`. -/
theorem marking_miscounts (n : ℕ) (hn : 2 ≤ n) (hn' : n ≤ 32) (base : ℕ) (st : ShuffleState α) :
    markedCount (shuffleMarking (fun _ => 0) base (2 ^ n) st).marked base (2 ^ n) = 0 ∧
      markedCount (shuffleMarking (fun _ => 4294967295) base (2 ^ n) st).marked base (2 ^ n) =
        2 ^ n / 2 + 1 ∧
      (shuffleMarking (fun _ => 4294967295) base (2 ^ n) st).markedPrefixSums (base + (2 ^ n - 1)) =
        2 ^ n / 2 + 1 := by
  have h₁ : 2 ≤ 2 ^ n := (Nat.pow_le_pow_right (by decide) (by omega : 1 ≤ n)).trans_eq' rfl
  have h₂ : 2 ^ n ≤ 2 ^ 32 := Nat.pow_le_pow_right (by decide) hn'
  have hmax := shuffleMarking_max_coins h₁ h₂ base st
  refine ⟨shuffleMarking_zero_coins h₁ h₂ base st, hmax, ?_⟩
  rw [shuffleMarking, markAll_prefixSums _ _ _ _ _ (by omega), Nat.sub_add_cancel (by omega)]
  exact hmax

theorem marking_miscounts_four : 2 ≤ 2 ∧ 2 ≤ 32 ∧
    markedCount (shuffleMarking (fun _ => 0) 0 (2 ^ 2)
      (⟨fun _ => 0, fun _ => false, fun _ => 0, 0, 0, []⟩ : ShuffleState ℕ)).marked 0 (2 ^ 2) = 0 ∧
    markedCount (shuffleMarking (fun _ => 4294967295) 0 (2 ^ 2)
      (⟨fun _ => 0, fun _ => false, fun _ => 0, 0, 0, []⟩ : ShuffleState ℕ)).marked 0 (2 ^ 2) =
        2 ^ 2 / 2 + 1 ∧
    (shuffleMarking (fun _ => 4294967295) 0 (2 ^ 2)
      (⟨fun _ => 0, fun _ => false, fun _ => 0, 0, 0, []⟩ : ShuffleState ℕ)).markedPrefixSums
        (0 + (2 ^ 2 - 1)) = 2 ^ 2 / 2 + 1 :=
  ⟨le_rfl, by decide, marking_miscounts 2 le_rfl (by decide) 0 _⟩

end DistributedSgxSort
