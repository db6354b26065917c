import DistributedSgxSort.Compact

/-! The recursive shuffle of `orshuffle.c`.

`shuffle` marks half of its range with one random draw per record, compacts the marked
records to the front, and shuffles both halves. The draw of record `k` is a function of
its coin and of `total_left`; `shuffleWith` takes that function as a parameter, and
`shuffle` instantiates it with the code's `((uint64_t) coins[j] * total_left) >> 32`.
The entropy source is two streams, `rand_read` coins and `rand_bit` bits, that never
fail; the state counts how much of each has been drawn. -/
namespace DistributedSgxSort

/-- `MARK_COINS`. -/
def markCoins : ℕ := 2048

/-- `a - b` in `size_t`, for `b < 2 ^ 64`. -/
def sizeSub (a b : ℕ) : ℕ := (a + 2 ^ 64 - b) % 2 ^ 64

/-- `((uint64_t) coins[j] * total_left) >> 32`. -/
def markingDraw (coin : UInt32) (totalLeft : ℕ) : ℕ := coin.toNat * totalLeft % 2 ^ 64 / 2 ^ 32

variable {α : Type*}

/-- Records, marker arrays, the number of coins and bits drawn so far, and the trace. -/
structure ShuffleState (α : Type*) where
  arr : ℕ → α
  marked : ℕ → Bool
  markedPrefixSums : ℕ → ℕ
  coinIdx : ℕ
  bitIdx : ℕ
  trace : List Event

/-- The marking loop's `total_left`, `marked_so_far` and the shuffle state. -/
abbrev MarkState (α : Type*) := ℕ × ℕ × ShuffleState α

/-- One iteration of the inner marking loop: record `base + i + j` with coin `c0 + j`. -/
def markStep (draw : ℕ → ℕ → ℕ) (numToMark base i c0 j : ℕ) (m : MarkState α) : MarkState α :=
  let (totalLeft, markedSoFar, st) := m
  let curMarked := decide (sizeSub numToMark markedSoFar ≤ draw (c0 + j) totalLeft)
  let markedSoFar := markedSoFar + curMarked.toNat
  (totalLeft - 1, markedSoFar,
    { st with
      marked := Function.update st.marked (base + (i + j)) curMarked
      markedPrefixSums := Function.update st.markedPrefixSums (base + (i + j)) markedSoFar
      trace := st.trace ++ [.writeMarked (base + (i + j)), .writePrefixSum (base + (i + j))] })

/-- The first `count` iterations of the inner marking loop of the chunk at `i`. -/
def markLoop (draw : ℕ → ℕ → ℕ) (numToMark base i c0 : ℕ) : ℕ → MarkState α → MarkState α
  | 0, m => m
  | j + 1, m => markStep draw numToMark base i c0 j (markLoop draw numToMark base i c0 j m)

/-- The first `count` chunks of the marking loop: each reads `MIN(length - i, MARK_COINS)`
coins with one `rand_read` and marks that many records. -/
def markChunks (draw : ℕ → ℕ → ℕ) (numToMark base length : ℕ) : ℕ → MarkState α → MarkState α
  | 0, m => m
  | t + 1, m =>
    let (totalLeft, markedSoFar, st) := markChunks draw numToMark base length t m
    let i := t * markCoins
    let elemsToMark := min (length - i) markCoins
    markLoop draw numToMark base i st.coinIdx elemsToMark
      (totalLeft, markedSoFar,
        { st with coinIdx := st.coinIdx + elemsToMark, trace := st.trace ++ [.randRead (elemsToMark * 4)] })

/-- The marking loop of `shuffle` on `length` records: `(length + MARK_COINS - 1) / MARK_COINS`
chunks, starting from `total_left = length` and `marked_so_far = 0`. -/
def markAll (draw : ℕ → ℕ → ℕ) (base length : ℕ) (st : ShuffleState α) : ShuffleState α :=
  (markChunks draw (length / 2) base length ((length + markCoins - 1) / markCoins)
    (length, 0, st)).2.2

/-- `shuffle(arr + base, marked + base, marked_prefix_sums + base, 2 ^ n)` with the marking
draw abstracted. -/
def shuffleWith (draw : ℕ → ℕ → ℕ) (bits : ℕ → Bool) : ℕ → ℕ → ShuffleState α → ShuffleState α
  | 0, _, st => st
  | 1, base, st =>
    { st with
      arr := oMemswap st.arr base (base + 1) (bits st.bitIdx)
      bitIdx := st.bitIdx + 1
      trace := st.trace ++ [.randBit, .memswap base (base + 1)] }
  | n + 2, base, st =>
    let m := markAll draw base (2 ^ (n + 2)) st
    let c := compact m.marked m.markedPrefixSums (n + 2) base 0 m.arr
    let st := shuffleWith draw bits (n + 1) base { m with arr := c.1, trace := m.trace ++ c.2 }
    shuffleWith draw bits (n + 1) (base + 2 ^ (n + 1)) st

/-- `shuffle` with the code's draw from the `rand_read` coins. -/
def shuffle (coins : ℕ → UInt32) (bits : ℕ → Bool) : ℕ → ℕ → ShuffleState α → ShuffleState α :=
  shuffleWith (fun k totalLeft => markingDraw (coins k) totalLeft) bits

/-! ### The trace depends on the length only -/

/-- The writes of the inner marking loop. -/
def markWrites (base i count : ℕ) : List Event :=
  (List.range count).flatMap fun j => [.writeMarked (base + (i + j)), .writePrefixSum (base + (i + j))]

/-- The trace of the first `t` chunks of the marking loop. -/
def markTrace (base length : ℕ) : ℕ → List Event
  | 0 => []
  | t + 1 => markTrace base length t ++
      .randRead (min (length - t * markCoins) markCoins * 4) ::
        markWrites base (t * markCoins) (min (length - t * markCoins) markCoins)

/-- The trace of `shuffle` on `2 ^ n` records at `base`. -/
def shuffleTrace : ℕ → ℕ → List Event
  | 0, _ => []
  | 1, base => [.randBit, .memswap base (base + 1)]
  | n + 2, base =>
    markTrace base (2 ^ (n + 2)) ((2 ^ (n + 2) + markCoins - 1) / markCoins) ++
      compactTrace (n + 2) base ++ shuffleTrace (n + 1) base ++
      shuffleTrace (n + 1) (base + 2 ^ (n + 1))

variable (draw : ℕ → ℕ → ℕ) (bits : ℕ → Bool)

theorem markLoop_trace (numToMark base i c0 count : ℕ) (m : MarkState α) :
    (markLoop draw numToMark base i c0 count m).2.2.trace = m.2.2.trace ++ markWrites base i count ∧
      (markLoop draw numToMark base i c0 count m).2.2.coinIdx = m.2.2.coinIdx := by
  induction count with
  | zero => simp [markLoop, markWrites]
  | succ j ih =>
    obtain ⟨ih1, ih2⟩ := ih
    simp only [markLoop, markStep, ih1, ih2, markWrites, List.range_succ, List.flatMap_append,
      List.append_assoc]
    simp

theorem markChunks_trace (numToMark base length t : ℕ) (m : MarkState α) :
    (markChunks draw numToMark base length t m).2.2.trace = m.2.2.trace ++ markTrace base length t := by
  induction t with
  | zero => simp [markChunks, markTrace]
  | succ t ih =>
    simp only [markChunks, markTrace, (markLoop_trace draw _ _ _ _ _ _).1, ih, List.append_assoc]
    rfl

theorem shuffleWith_trace (n base : ℕ) (st : ShuffleState α) :
    (shuffleWith draw bits n base st).trace = st.trace ++ shuffleTrace n base := by
  induction n using Nat.strongRecOn generalizing base st with
  | _ n ih =>
    match n with
    | 0 => simp [shuffleWith, shuffleTrace]
    | 1 => rfl
    | n + 2 =>
      simp only [shuffleWith, shuffleTrace, ih (n + 1) (by omega), markAll, markChunks_trace,
        compact_snd, List.append_assoc]

/-- Two runs of `shuffle` on `2 ^ n` records, whatever their records, marker contents,
coins and bits, make the same `o_memswap` index pairs, the same marker accesses and the
same randomness requests. -/
theorem shuffle_trace_oblivious (n : ℕ) (coins₁ coins₂ : ℕ → UInt32) (bits₁ bits₂ : ℕ → Bool)
    (arr₁ arr₂ : ℕ → α) (marked₁ marked₂ : ℕ → Bool) (sums₁ sums₂ : ℕ → ℕ)
    (coinIdx₁ coinIdx₂ bitIdx₁ bitIdx₂ : ℕ) :
    (shuffle coins₁ bits₁ n 0 ⟨arr₁, marked₁, sums₁, coinIdx₁, bitIdx₁, []⟩).trace =
      (shuffle coins₂ bits₂ n 0 ⟨arr₂, marked₂, sums₂, coinIdx₂, bitIdx₂, []⟩).trace := by
  simp only [shuffle, shuffleWith_trace, List.nil_append]

/-! ### The records are permuted -/

theorem markLoop_arr (numToMark base i c0 count : ℕ) (m : MarkState α) :
    (markLoop draw numToMark base i c0 count m).2.2.arr = m.2.2.arr := by
  induction count with
  | zero => rfl
  | succ j ih => simp only [markLoop, markStep, ih]

theorem markAll_arr (base length : ℕ) (st : ShuffleState α) :
    (markAll draw base length st).arr = st.arr := by
  suffices ∀ t (m : MarkState α), (markChunks draw (length / 2) base length t m).2.2.arr = m.2.2.arr from
    this _ _
  intro t
  induction t with
  | zero => exact fun _ => rfl
  | succ t ih => intro m; simp only [markChunks, markLoop_arr, ih]

/-- Whatever the draws and the bits, `shuffle` on `2 ^ n` records at `base` permutes the
records of its range among themselves. -/
theorem shuffleWith_perm (n base : ℕ) (st : ShuffleState α) :
    ∃ σ : Equiv.Perm ℕ, (shuffleWith draw bits n base st).arr = st.arr ∘ σ ∧
      ∀ p, p < base ∨ base + 2 ^ n ≤ p → σ p = p := by
  induction n using Nat.strongRecOn generalizing base st with
  | _ n ih =>
    match n with
    | 0 => exact ⟨1, rfl, fun _ _ => rfl⟩
    | 1 =>
      refine ⟨if bits st.bitIdx then Equiv.swap base (base + 1) else 1, oMemswap_eq _ _ _ _,
        fun p hp => ?_⟩
      split_ifs
      · exact Equiv.swap_apply_of_ne_of_ne (by omega) (by omega)
      · rfl
    | n + 2 =>
      have hh : 2 ^ (n + 2) = 2 ^ (n + 1) + 2 ^ (n + 1) := by rw [pow_succ]; omega
      obtain ⟨σc, hc, hco, -⟩ := compact_spec (markAll draw base (2 ^ (n + 2)) st).marked
        (markAll draw base (2 ^ (n + 2)) st).markedPrefixSums (n + 2) base 0
        (markAll draw base (2 ^ (n + 2)) st).arr
      obtain ⟨σ₁, h₁, h₁o⟩ := ih (n + 1) (by omega) base
        { markAll draw base (2 ^ (n + 2)) st with
          arr := (compact (markAll draw base (2 ^ (n + 2)) st).marked
            (markAll draw base (2 ^ (n + 2)) st).markedPrefixSums (n + 2) base 0
            (markAll draw base (2 ^ (n + 2)) st).arr).1
          trace := (markAll draw base (2 ^ (n + 2)) st).trace ++
            (compact (markAll draw base (2 ^ (n + 2)) st).marked
              (markAll draw base (2 ^ (n + 2)) st).markedPrefixSums (n + 2) base 0
              (markAll draw base (2 ^ (n + 2)) st).arr).2 }
      obtain ⟨σ₂, h₂, h₂o⟩ := ih (n + 1) (by omega) (base + 2 ^ (n + 1)) _
      refine ⟨σc * σ₁ * σ₂, ?_, fun p hp => ?_⟩
      · simp only [shuffleWith]
        rw [h₂, h₁]
        dsimp only
        rw [hc, markAll_arr]
        rfl
      · rw [Equiv.Perm.mul_apply, Equiv.Perm.mul_apply, h₂o p (by omega), h₁o p (by omega),
          hco p (by omega)]

/-! ### Uniformity

With each marking draw uniform in `[0, total_left)` and each bit fair, the draw space of
`shuffle` on `2 ^ n` records is a product whose factors depend on `n` only: the ranges of
the marking draws in the order they are consumed, and one factor of two per bit. -/

/-- The ranges of the marking draws of `shuffle` on `2 ^ n` records, in order. -/
def drawRanges : ℕ → List ℕ
  | 0 => []
  | 1 => []
  | n + 2 => (List.range (2 ^ (n + 2))).reverse.map (· + 1) ++ drawRanges (n + 1) ++ drawRanges (n + 1)

/-- The number of `rand_bit` calls of `shuffle` on `2 ^ n` records. -/
def bitCount : ℕ → ℕ
  | 0 => 0
  | 1 => 1
  | n + 2 => 2 * bitCount (n + 1)

/-- All tuples with one value below each given range. -/
def rangeTuples : List ℕ → List (List ℕ)
  | [] => [[]]
  | r :: rs => (List.range r).flatMap fun d => (rangeTuples rs).map (d :: ·)

/-- All bit vectors of a given length. -/
def bitTuples : ℕ → List (List Bool)
  | 0 => [[]]
  | k + 1 => (bitTuples k).flatMap fun bs => [false :: bs, true :: bs]

/-- The draw space of `shuffle` on `2 ^ n` records. -/
def drawSpace (n : ℕ) : List (List ℕ × List Bool) :=
  (rangeTuples (drawRanges n)).flatMap fun ds => (bitTuples (bitCount n)).map (ds, ·)

/-- The rearrangement produced by one draw tuple: the original position of the record that
ends at each position. -/
def shuffleOutcome (n : ℕ) (ds : List ℕ) (bs : List Bool) : List ℕ :=
  (List.range (2 ^ n)).map (shuffleWith (fun k _ => ds.getD k 0) (fun k => bs.getD k false) n 0
    ⟨id, fun _ => false, fun _ => 0, 0, 0, []⟩).arr

/-- The number of draw tuples that produce a rearrangement. -/
def outcomeCount (n : ℕ) (perm : List ℕ) : ℕ :=
  ((drawSpace n).filter fun t => shuffleOutcome n t.1 t.2 = perm).length

/-- On four records the identity comes from 8 of the 96 draw tuples, and the
rearrangement `[0, 3, 1, 2]` from none; a uniform shuffle gives each of the 24 four. -/
theorem outcomeCount_four : (drawSpace 2).length = 96 ∧
    outcomeCount 2 [0, 1, 2, 3] = 8 ∧ outcomeCount 2 [0, 3, 1, 2] = 0 := by
  decide

end DistributedSgxSort
