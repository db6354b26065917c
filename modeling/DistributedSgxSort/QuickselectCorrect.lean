import DistributedSgxSort.QuickselectPartition

/-! Quickselect on strictly increasing targets, in the synchronous-round model. Each call
gets windows `[left w, right w)` and targets at least the number of records below the
windows and below the number of records up to their ends. A round's master then always
exists, the targets below `cur_pivot` fit the left windows and those above it the right
windows, so every call returns 0; and each target's slot of `sample_idxs` ends up splitting
every worker's array around a common sample, at that target's global rank. -/
namespace DistributedSgxSort

/-! ### The pieces of a round -/

section Dispatch

variable {targets : ℕ → ℕ} {tOff num key : ℕ}

end Dispatch

/-! ### What a call needs and what it leaves -/

/-- What a call of quickselect on the windows `[left w, right w)` and the targets
`targets[tOff .. tOff + num)` needs: the windows are intervals, and the targets are strictly
increasing, each at least the number of records below the windows and below the number of
records up to their ends. -/
structure WindowTargets (W : ℕ) (targets : ℕ → ℕ) (tOff num : ℕ) (left right : ℕ → ℕ) : Prop where
  le : ∀ w < W, left w ≤ right w
  low : ∀ i < num, ∑ w ∈ Finset.range W, left w ≤ targets (tOff + i)
  high : ∀ i < num, targets (tOff + i) < ∑ w ∈ Finset.range W, right w
  strict : ∀ i j, i < j → j < num → targets (tOff + i) < targets (tOff + j)

/-- Slot `k` splits every worker's window `[left w, right w)` around the sample `s`, at the
global rank `t`: all workers record `s`, `sample_idxs[k]` lies in the window and sums to
`t` over the workers, the records below it are at most `s` and those from it on at least
`s`, and `s` ranks like a record of one of the windows. -/
structure SplitAt (W t : ℕ) (left right : ℕ → ℕ) (sts : ℕ → QsState) (k : ℕ) (s : Sample) :
    Prop where
  sample : ∀ w < W, (sts w).samples k = s
  left_le : ∀ w < W, left w ≤ (sts w).sampleIdxs k
  le_right : ∀ w < W, (sts w).sampleIdxs k ≤ right w
  sum : ∑ w ∈ Finset.range W, (sts w).sampleIdxs k = t
  below : ∀ w < W, ∀ p, left w ≤ p → p < (sts w).sampleIdxs k → ((sts w).arr p).rank ≤ s.rank
  above : ∀ w < W, ∀ q, (sts w).sampleIdxs k ≤ q → q < right w → s.rank ≤ ((sts w).arr q).rank
  source : ∃ w < W, ∃ p, left w ≤ p ∧ p < right w ∧ ((sts w).arr p).rank = s.rank

/-- What a call leaves: every window permuted within itself, the slots outside
`[tOff, tOff + num)` untouched, each target's slot splitting the windows at that target's
rank, and the split points non-decreasing in the target index. -/
structure Selected (W : ℕ) (targets : ℕ → ℕ) (tOff num : ℕ) (left right : ℕ → ℕ)
    (sts sts' : ℕ → QsState) : Prop where
  perm : ∀ w < W, PermOn (left w) (right w) (sts w).arr (sts' w).arr
  frame : ∀ w < W, ∀ k, (k < tOff ∨ tOff + num ≤ k) →
    (sts' w).samples k = (sts w).samples k ∧ (sts' w).sampleIdxs k = (sts w).sampleIdxs k
  split : ∀ i < num, ∃ s, SplitAt W (targets (tOff + i)) left right sts' (tOff + i) s
  mono : ∀ w < W, ∀ i j, i ≤ j → j < num →
    (sts' w).sampleIdxs (tOff + i) ≤ (sts' w).sampleIdxs (tOff + j)

theorem Selected.nil (W : ℕ) (targets : ℕ → ℕ) (tOff : ℕ) (left right : ℕ → ℕ) (sts : ℕ → QsState) :
    Selected W targets tOff 0 left right sts sts :=
  ⟨fun _ _ => PermOn.refl _ _ _, fun _ _ _ _ => ⟨rfl, rfl⟩, fun _ h => absurd h (Nat.not_lt_zero _),
    fun _ _ _ _ _ h => absurd h (Nat.not_lt_zero _)⟩

/-- The targets below `cur_pivot` fit the left windows `[left w, partition_right w)`. -/
theorem WindowTargets.left {W : ℕ} {targets : ℕ → ℕ} {tOff num geq : ℕ} {left right pr : ℕ → ℕ}
    (h : WindowTargets W targets tOff num left right) (hgeq : geq ≤ num)
    (hle : ∀ w < W, left w ≤ pr w)
    (hbelow : ∀ i < geq, targets (tOff + i) < ∑ w ∈ Finset.range W, pr w) :
    WindowTargets W targets tOff geq left pr :=
  ⟨hle, fun i hi => h.low i (by omega), hbelow, fun i j hij hj => h.strict i j hij (by omega)⟩

/-- The targets from `gt` on, all above `cur_pivot`, fit the right windows
`[partition_left w, right w)`. -/
theorem WindowTargets.right {W : ℕ} {targets : ℕ → ℕ} {tOff num gt : ℕ} {left right pl : ℕ → ℕ}
    (h : WindowTargets W targets tOff num left right) (hgt : gt ≤ num)
    (hle : ∀ w < W, pl w ≤ right w)
    (habove : ∀ i, gt ≤ i → i < num → ∑ w ∈ Finset.range W, pl w ≤ targets (tOff + i)) :
    WindowTargets W targets (tOff + gt) (num - gt) pl right where
  le := hle
  low i hi := by rw [Nat.add_assoc]; exact habove (gt + i) (Nat.le_add_right _ _) (by omega)
  high i hi := by rw [Nat.add_assoc]; exact h.high (gt + i) (by omega)
  strict i j hij hj := by
    simpa only [Nat.add_assoc] using h.strict (gt + i) (gt + j) (by omega) (by omega)

/-! ### A round and its two recursive calls -/

/-- A round's two sides, seen from its pivot `P`: on every worker `left ≤ partition_right ≤
partition_left ≤ right`, the records below `partition_left` at most `P`, and those from
`partition_right` on at least `P` (the master's pivot, between the two, is both). -/
structure RoundSides (W : ℕ) (left right pr pl : ℕ → ℕ) (P : Sample) (sts : ℕ → QsState) : Prop where
  left_le : ∀ w < W, left w ≤ pr w
  pr_le : ∀ w < W, pr w ≤ pl w
  le_right : ∀ w < W, pl w ≤ right w
  below : ∀ w < W, ∀ p, left w ≤ p → p < pl w → ((sts w).arr p).rank ≤ P.rank
  above : ∀ w < W, ∀ q, pr w ≤ q → q < right w → P.rank ≤ ((sts w).arr q).rank

section Combine

variable {W : ℕ} {left right pr pl : ℕ → ℕ} {P : Sample} {sts sts' : ℕ → QsState}

theorem RoundSides.perm_left (h : RoundSides W left right pr pl P sts)
    (hperm : ∀ w < W, PermOn (left w) (pr w) (sts w).arr (sts' w).arr) :
    RoundSides W left right pr pl P sts' where
  left_le := h.left_le
  pr_le := h.pr_le
  le_right := h.le_right
  below w hw p h₁ h₂ := by
    rcases Nat.lt_or_ge p (pr w) with hp | hp
    · exact (hperm w hw).forall_mem (Q := fun e => e.rank ≤ P.rank)
        (fun p h₁ h₂ => h.below w hw p h₁ (h₂.trans_le (h.pr_le w hw))) p h₁ hp
    · rw [(hperm w hw).apply_of_not_mem (.inr hp)]
      exact h.below w hw p h₁ h₂
  above w hw q h₁ h₂ := by
    rw [(hperm w hw).apply_of_not_mem (.inr h₁)]
    exact h.above w hw q h₁ h₂

theorem RoundSides.perm_right (h : RoundSides W left right pr pl P sts)
    (hperm : ∀ w < W, PermOn (pl w) (right w) (sts w).arr (sts' w).arr) :
    RoundSides W left right pr pl P sts' where
  left_le := h.left_le
  pr_le := h.pr_le
  le_right := h.le_right
  below w hw p h₁ h₂ := by
    rw [(hperm w hw).apply_of_not_mem (.inl h₂)]
    exact h.below w hw p h₁ h₂
  above w hw q h₁ h₂ := by
    rcases Nat.lt_or_ge q (pl w) with hq | hq
    · rw [(hperm w hw).apply_of_not_mem (.inl hq)]
      exact h.above w hw q h₁ h₂
    · exact (hperm w hw).forall_mem (Q := fun e => P.rank ≤ e.rank)
        (fun q h₁ h₂ => h.above w hw q ((h.pr_le w hw).trans h₁) h₂) q hq h₂

/-- A split survives whatever keeps its slot and the records of its windows. -/
theorem SplitAt.congr {t k : ℕ} {s : Sample} (h : SplitAt W t left right sts k s)
    (hslot : ∀ w < W, (sts' w).samples k = (sts w).samples k ∧
      (sts' w).sampleIdxs k = (sts w).sampleIdxs k)
    (harr : ∀ w < W, ∀ p, left w ≤ p → p < right w → (sts' w).arr p = (sts w).arr p) :
    SplitAt W t left right sts' k s where
  sample w hw := (hslot w hw).1.trans (h.sample w hw)
  left_le w hw := (hslot w hw).2 ▸ h.left_le w hw
  le_right w hw := (hslot w hw).2 ▸ h.le_right w hw
  sum := by rw [Finset.sum_congr rfl fun w hw => (hslot w (Finset.mem_range.1 hw)).2]; exact h.sum
  below w hw p h₁ h₂ := by
    rw [(hslot w hw).2] at h₂
    rw [harr w hw p h₁ (h₂.trans_le (h.le_right w hw))]
    exact h.below w hw p h₁ h₂
  above w hw q h₁ h₂ := by
    rw [(hslot w hw).2] at h₁
    rw [harr w hw q ((h.left_le w hw).trans h₁) h₂]
    exact h.above w hw q h₁ h₂
  source := by
    obtain ⟨v, hv, p, h₁, h₂, hrank⟩ := h.source
    exact ⟨v, hv, p, h₁, h₂, by rw [harr v hv p h₁ h₂, hrank]⟩

/-- A split of the left windows is one of the whole windows: everything from
`partition_right` on is at least the round's pivot, which is at least the split's sample. -/
theorem SplitAt.lift_left {t k : ℕ} {s : Sample} (h : SplitAt W t left pr sts k s)
    (hs : RoundSides W left right pr pl P sts) : SplitAt W t left right sts k s where
  sample := h.sample
  left_le := h.left_le
  le_right w hw := (h.le_right w hw).trans ((hs.pr_le w hw).trans (hs.le_right w hw))
  sum := h.sum
  below := h.below
  above w hw q h₁ h₂ := by
    rcases Nat.lt_or_ge q (pr w) with hq | hq
    · exact h.above w hw q h₁ hq
    · obtain ⟨v, hv, p, hp₁, hp₂, hrank⟩ := h.source
      calc s.rank = ((sts v).arr p).rank := hrank.symm
        _ ≤ P.rank := hs.below v hv p hp₁ (hp₂.trans_le (hs.pr_le v hv))
        _ ≤ ((sts w).arr q).rank := hs.above w hw q hq h₂
  source := by
    obtain ⟨v, hv, p, hp₁, hp₂, hrank⟩ := h.source
    exact ⟨v, hv, p, hp₁, hp₂.trans_le ((hs.pr_le v hv).trans (hs.le_right v hv)), hrank⟩

/-- A split of the right windows is one of the whole windows: everything below
`partition_left` is at most the round's pivot, which is at most the split's sample. -/
theorem SplitAt.lift_right {t k : ℕ} {s : Sample} (h : SplitAt W t pl right sts k s)
    (hs : RoundSides W left right pr pl P sts) : SplitAt W t left right sts k s where
  sample := h.sample
  left_le w hw := ((hs.left_le w hw).trans (hs.pr_le w hw)).trans (h.left_le w hw)
  le_right := h.le_right
  sum := h.sum
  below w hw p h₁ h₂ := by
    rcases Nat.lt_or_ge p (pl w) with hp | hp
    · obtain ⟨v, hv, q, hq₁, hq₂, hrank⟩ := h.source
      calc ((sts w).arr p).rank ≤ P.rank := hs.below w hw p h₁ hp
        _ ≤ ((sts v).arr q).rank := hs.above v hv q ((hs.pr_le v hv).trans hq₁) hq₂
        _ = s.rank := hrank
    · exact h.below w hw p hp h₂
  above := h.above
  source := by
    obtain ⟨v, hv, q, hq₁, hq₂, hrank⟩ := h.source
    exact ⟨v, hv, q, ((hs.left_le v hv).trans (hs.pr_le v hv)).trans hq₁, hq₂, hrank⟩

/-- The round's own target, when found: `partition_right` splits the windows around the
pivot, which the master holds between its two sides. -/
theorem RoundSides.splitAt {t k master : ℕ} (hs : RoundSides W left right pr pl P sts)
    (hm : master < W) (hpm : pr master < pl master)
    (hslot : ∀ w < W, (sts w).samples k = P ∧ (sts w).sampleIdxs k = pr w)
    (hsum : ∑ w ∈ Finset.range W, pr w = t) : SplitAt W t left right sts k P where
  sample w hw := (hslot w hw).1
  left_le w hw := (hslot w hw).2 ▸ hs.left_le w hw
  le_right w hw := (hslot w hw).2 ▸ (hs.pr_le w hw).trans (hs.le_right w hw)
  sum := by rw [Finset.sum_congr rfl fun w hw => (hslot w (Finset.mem_range.1 hw)).2]; exact hsum
  below w hw p h₁ h₂ := hs.below w hw p h₁ (((hslot w hw).2 ▸ h₂).trans_le (hs.pr_le w hw))
  above w hw q h₁ h₂ := hs.above w hw q ((hslot w hw).2 ▸ h₁) h₂
  source := ⟨master, hm, pr master, hs.left_le master hm,
    hpm.trans_le (hs.le_right master hm),
    le_antisymm (hs.below master hm _ (hs.left_le master hm) hpm)
      (hs.above master hm _ le_rfl (hpm.trans_le (hs.le_right master hm)))⟩

end Combine

/-- A round and its two recursive calls leave what a call should: the round permutes the
windows and records its own target when found, the call on the targets below `cur_pivot`
handles the left windows, and the one on the targets above it the right windows. -/
theorem Selected.round {W : ℕ} {left right pr pl : ℕ → ℕ} {P : Sample} {targets : ℕ → ℕ}
    {tOff num geq master : ℕ} {found : Bool} {sts sts₁ sts₂ sts₃ : ℕ → QsState}
    (hgt : geq + found.toNat ≤ num)
    (harr : ∀ w < W, PermOn (left w) (right w) (sts w).arr (sts₁ w).arr)
    (hslot : ∀ w < W, ∀ k, (found = false ∨ k ≠ tOff + geq) →
      (sts₁ w).samples k = (sts w).samples k ∧ (sts₁ w).sampleIdxs k = (sts w).sampleIdxs k)
    (hrec : found = true → ∀ w < W,
      (sts₁ w).samples (tOff + geq) = P ∧ (sts₁ w).sampleIdxs (tOff + geq) = pr w)
    (hsum : found = true → ∑ w ∈ Finset.range W, pr w = targets (tOff + geq))
    (hsides : RoundSides W left right pr pl P sts₁) (hm : master < W) (hpm : pr master < pl master)
    (hL : Selected W targets tOff geq left pr sts₁ sts₂)
    (hR : Selected W targets (tOff + (geq + found.toNat)) (num - (geq + found.toNat)) pl right
      sts₂ sts₃) :
    Selected W targets tOff num left right sts sts₃ := by
  have hs₃ := (hsides.perm_left hL.perm).perm_right hR.perm
  have hslotR : ∀ w < W, ∀ k, k < tOff + (geq + found.toNat) →
      (sts₃ w).samples k = (sts₂ w).samples k ∧ (sts₃ w).sampleIdxs k = (sts₂ w).sampleIdxs k :=
    fun w hw k hk => hR.frame w hw k (.inl hk)
  have hregion : ∀ i < num, i < geq ∨ (found = true ∧ i = geq) ∨ geq + found.toNat ≤ i :=
    fun i hi => by cases found <;> simp at hgt ⊢ <;> omega
  -- where each target's split lands: in the left windows, at the pivot, or in the right ones
  have hleft : ∀ i < geq, ∃ s, SplitAt W (targets (tOff + i)) left right sts₃ (tOff + i) s ∧
      ∀ w < W, (sts₃ w).sampleIdxs (tOff + i) ≤ pr w := fun i hi => by
    obtain ⟨s, hs⟩ := hL.split i hi
    have hs' := hs.congr (fun w hw => hslotR w hw _ (by omega)) fun w hw p _ hp =>
      (hR.perm w hw).apply_of_not_mem (.inl (hp.trans_le (hsides.pr_le w hw)))
    exact ⟨s, hs'.lift_left hs₃, hs'.le_right⟩
  have hmid : found = true → ∀ w < W,
      (sts₃ w).samples (tOff + geq) = P ∧ (sts₃ w).sampleIdxs (tOff + geq) = pr w := fun hf w hw => by
    have h₂ := hL.frame w hw (tOff + geq) (.inr le_rfl)
    have h₃ := hslotR w hw (tOff + geq) (by simp [hf])
    rw [h₃.1, h₃.2, h₂.1, h₂.2]
    exact hrec hf w hw
  have hright : ∀ i, geq + found.toNat ≤ i → i < num →
      ∃ s, SplitAt W (targets (tOff + i)) left right sts₃ (tOff + i) s ∧
        ∀ w < W, pl w ≤ (sts₃ w).sampleIdxs (tOff + i) := fun i hi hin => by
    obtain ⟨s, hs⟩ := hR.split (i - (geq + found.toNat)) (by omega)
    rw [show tOff + (geq + found.toNat) + (i - (geq + found.toNat)) = tOff + i by omega] at hs
    exact ⟨s, hs.lift_right hs₃, hs.left_le⟩
  refine ⟨fun w hw => ?_, fun w hw k hk => ?_, fun i hi => ?_, fun w hw i j hij hj => ?_⟩
  · exact ((harr w hw).trans ((hL.perm w hw).mono le_rfl
      ((hsides.pr_le w hw).trans (hsides.le_right w hw)))).trans
      ((hR.perm w hw).mono ((hsides.left_le w hw).trans (hsides.pr_le w hw)) le_rfl)
  · have h₃ := hR.frame w hw k (by omega)
    have h₂ := hL.frame w hw k (by omega)
    have h₁ := hslot w hw k (by cases found <;> simp at hgt ⊢; omega)
    rw [h₃.1, h₃.2, h₂.1, h₂.2, h₁.1, h₁.2]
    exact ⟨rfl, rfl⟩
  · rcases hregion i hi with hi' | ⟨hf, rfl⟩ | hi'
    · exact (hleft i hi').imp fun _ h => h.1
    · exact ⟨P, hs₃.splitAt hm hpm (hmid hf) (hsum hf)⟩
    · exact (hright i hi' hi).imp fun _ h => h.1
  · rcases hregion j hj with hj' | ⟨hf, rfl⟩ | hj'
    · rw [(hslotR w hw (tOff + i) (by omega)).2, (hslotR w hw (tOff + j) (by omega)).2]
      exact hL.mono w hw i j hij hj'
    · rw [(hmid hf w hw).2]
      rcases Nat.eq_or_lt_of_le hij with rfl | hij'
      · rw [(hmid hf w hw).2]
      · obtain ⟨_, _, hle⟩ := hleft i hij'
        exact hle w hw
    · obtain ⟨_, _, hge⟩ := hright j hj' hj
      rcases hregion i (by omega) with hi' | ⟨hf, rfl⟩ | hi'
      · obtain ⟨_, _, hle⟩ := hleft i hi'
        exact (hle w hw).trans ((hsides.pr_le w hw).trans (hge w hw))
      · rw [(hmid hf w hw).2]
        exact (hsides.pr_le w hw).trans (hge w hw)
      · have := hR.mono w hw (i - (geq + found.toNat)) (j - (geq + found.toNat)) (by omega) (by omega)
        rwa [show tOff + (geq + found.toNat) + (i - (geq + found.toNat)) = tOff + i by omega,
          show tOff + (geq + found.toNat) + (j - (geq + found.toNat)) = tOff + j by omega] at this

end DistributedSgxSort
