import DistributedSgxSort.Quickselect
import DistributedSgxSort.Memory
import Mathlib.GroupTheory.Perm.Basic

/-! The partition of `distributed_quickselect_helper`. The two-state scan loop keeps every
record left of `partition_left` at most the pivot, every record from `partition_right` on
at least the pivot, and `arr[partition_left]` above the pivot while scanning right; each
iteration lowers `2 (partition_right - partition_left)`, plus one while scanning left, so
the fuel that `partitionWindow` gives it is enough for the cursors to meet. On the master,
the final swap puts the pivot between the two sides. -/
namespace DistributedSgxSort

/-- `arr'` is `arr` with the records of `[lo, hi)` permuted among themselves. -/
def PermOn (lo hi : ℕ) (arr arr' : ℕ → Elem) : Prop :=
  ∃ σ : Equiv.Perm ℕ, arr' = arr ∘ σ ∧ ∀ p, (p < lo ∨ hi ≤ p) → σ p = p

section PermOn

variable {lo hi : ℕ} {arr arr' arr'' : ℕ → Elem}

theorem PermOn.refl (lo hi : ℕ) (arr : ℕ → Elem) : PermOn lo hi arr arr :=
  ⟨1, rfl, fun _ _ => rfl⟩

theorem PermOn.trans (h : PermOn lo hi arr arr') (h' : PermOn lo hi arr' arr'') :
    PermOn lo hi arr arr'' := by
  obtain ⟨σ, rfl, hσ⟩ := h
  obtain ⟨τ, rfl, hτ⟩ := h'
  exact ⟨σ * τ, rfl, fun p hp => by rw [Equiv.Perm.mul_apply, hτ p hp, hσ p hp]⟩

theorem PermOn.mono {lo' hi' : ℕ} (h : PermOn lo' hi' arr arr') (hlo : lo ≤ lo') (hhi : hi' ≤ hi) :
    PermOn lo hi arr arr' :=
  let ⟨σ, e, hσ⟩ := h
  ⟨σ, e, fun p hp => hσ p (by omega)⟩

theorem PermOn.swap {a b : ℕ} (ha : lo ≤ a ∧ a < hi) (hb : lo ≤ b ∧ b < hi) (arr : ℕ → Elem) :
    PermOn lo hi arr (arr ∘ Equiv.swap a b) :=
  ⟨Equiv.swap a b, rfl, fun _ hp => Equiv.swap_apply_of_ne_of_ne (by omega) (by omega)⟩

theorem PermOn.apply_of_not_mem (h : PermOn lo hi arr arr') {p : ℕ} (hp : p < lo ∨ hi ≤ p) :
    arr' p = arr p := by
  obtain ⟨σ, rfl, hσ⟩ := h
  exact congrArg arr (hσ p hp)

theorem perm_mem_of_fixes {σ : Equiv.Perm ℕ} (hσ : ∀ p, (p < lo ∨ hi ≤ p) → σ p = p) {p : ℕ}
    (hp : lo ≤ p ∧ p < hi) : lo ≤ σ p ∧ σ p < hi := by
  by_contra hout
  have hfix := hσ (σ p) (by omega)
  rw [σ.injective hfix] at hout
  exact hout hp

theorem PermOn.forall_mem (h : PermOn lo hi arr arr') {Q : Elem → Prop}
    (hQ : ∀ p, lo ≤ p → p < hi → Q (arr p)) : ∀ p, lo ≤ p → p < hi → Q (arr' p) := by
  obtain ⟨σ, rfl, hσ⟩ := h
  intro p h₁ h₂
  have := perm_mem_of_fixes hσ ⟨h₁, h₂⟩
  exact hQ _ this.1 this.2

end PermOn

/-! ### The scan loop -/

/-- What the scan loop keeps on the window `[lo, hi)`. -/
structure ScanInv (pivot : Sample) (lo hi : ℕ) (arr : ℕ → Elem) (pl pr : ℕ) (st : PartitionState) :
    Prop where
  lo_le : lo ≤ pl
  le : pl ≤ pr
  le_hi : pr ≤ hi
  below : ∀ p, lo ≤ p → p < pl → (arr p).rank ≤ pivot.rank
  above : ∀ q, pr ≤ q → q < hi → pivot.rank ≤ (arr q).rank
  scan_right : st = .scanRight → pl < pr → pivot.rank < (arr pl).rank

/-- `2 (partition_right - partition_left)`, plus one while scanning left: every iteration of
the loop lowers it. -/
def scanMeasure (pl pr : ℕ) : PartitionState → ℕ
  | .scanLeft => 2 * (pr - pl) + 1
  | .scanRight => 2 * (pr - pl)

/-- What the scan loop leaves from `arr` on `[lo, hi)`: the cursors met at a point `p`, the
records below `p` at most the pivot and those from `p` on at least the pivot, all of them
permuted within the window. -/
def ScanDone (pivot : Sample) (lo hi : ℕ) (arr : ℕ → Elem) (r : (ℕ → Elem) × ℕ × ℕ) : Prop :=
  lo ≤ r.2.1 ∧ r.2.1 = r.2.2 ∧ r.2.2 ≤ hi ∧
    (∀ p, lo ≤ p → p < r.2.1 → (r.1 p).rank ≤ pivot.rank) ∧
    (∀ q, r.2.2 ≤ q → q < hi → pivot.rank ≤ (r.1 q).rank) ∧ PermOn lo hi arr r.1

theorem ScanInv.done {pivot : Sample} {lo hi pl pr : ℕ} {arr₀ arr : ℕ → Elem} {st : PartitionState}
    (hinv : ScanInv pivot lo hi arr pl pr st) (hperm : PermOn lo hi arr₀ arr) (hpl : pr ≤ pl) :
    ScanDone pivot lo hi arr₀ (arr, pl, pr) :=
  ⟨hinv.lo_le, le_antisymm hinv.le hpl, hinv.le_hi, hinv.below, hinv.above, hperm⟩

section Scan

variable {pivot : Sample} {lo hi : ℕ}

theorem ScanInv.scanLeft_advance {arr : ℕ → Elem} {pl pr : ℕ} {st : PartitionState}
    (hinv : ScanInv pivot lo hi arr pl pr st) (hlt : pl < pr)
    (hle : ¬0 < elemSampleComparator (arr pl) pivot) : ScanInv pivot lo hi arr (pl + 1) pr .scanLeft where
  lo_le := by have := hinv.lo_le; omega
  le := hlt
  le_hi := hinv.le_hi
  below p h₁ h₂ := by
    rcases Nat.lt_succ_iff_lt_or_eq.1 h₂ with h₂ | rfl
    · exact hinv.below p h₁ h₂
    · exact not_lt.1 ((elemSampleComparator_pos_iff _ _).not.1 hle)
  above := hinv.above
  scan_right h := by cases h

theorem ScanInv.scanLeft_stop {arr : ℕ → Elem} {pl pr : ℕ} {st : PartitionState}
    (hinv : ScanInv pivot lo hi arr pl pr st)
    (hgt : 0 < elemSampleComparator (arr pl) pivot) : ScanInv pivot lo hi arr pl pr .scanRight :=
  { hinv with scan_right := fun _ _ => (elemSampleComparator_pos_iff _ _).1 hgt }

theorem ScanInv.scanRight_retreat {arr : ℕ → Elem} {pl pr : ℕ}
    (hinv : ScanInv pivot lo hi arr pl pr .scanRight) (hlt : pl < pr)
    (hge : ¬elemSampleComparator (arr (pr - 1)) pivot < 0) :
    ScanInv pivot lo hi arr pl (pr - 1) .scanRight where
  lo_le := hinv.lo_le
  le := by omega
  le_hi := by have := hinv.le_hi; omega
  below := hinv.below
  above q h₁ h₂ := by
    rcases Nat.eq_or_lt_of_le h₁ with rfl | h₁
    · exact not_lt.1 ((elemSampleComparator_neg_iff _ _).not.1 hge)
    · exact hinv.above q (by omega) h₂
  scan_right _ h := hinv.scan_right rfl (by omega)

/-- The swap of `SCAN_RIGHT` exchanges a record above the pivot at `partition_left` with one
below it at `partition_right - 1`; the two are distinct, so the cursors do not cross. -/
theorem ScanInv.scanRight_swap {arr : ℕ → Elem} {pl pr : ℕ}
    (hinv : ScanInv pivot lo hi arr pl pr .scanRight) (hlt : pl < pr)
    (hbelow : elemSampleComparator (arr (pr - 1)) pivot < 0) :
    pl < pr - 1 ∧ ScanInv pivot lo hi (arr ∘ Equiv.swap (pr - 1) pl) (pl + 1) (pr - 1) .scanLeft := by
  have hgt := hinv.scan_right rfl hlt
  have hlt' := (elemSampleComparator_neg_iff _ _).1 hbelow
  have hne : pl ≠ pr - 1 := fun e => lt_asymm hgt (e ▸ hlt')
  refine ⟨by omega, ⟨by have := hinv.lo_le; omega, by omega, by have := hinv.le_hi; omega,
    fun p h₁ h₂ => ?_, fun q h₁ h₂ => ?_, fun h => by cases h⟩⟩
  · rcases Nat.lt_succ_iff_lt_or_eq.1 h₂ with h₂ | rfl
    · rw [Function.comp_apply, Equiv.swap_apply_of_ne_of_ne (by omega) (by omega)]
      exact hinv.below p h₁ h₂
    · rw [Function.comp_apply, Equiv.swap_apply_right]
      exact hlt'.le
  · rcases Nat.eq_or_lt_of_le h₁ with rfl | h₁
    · rw [Function.comp_apply, Equiv.swap_apply_left]
      exact hgt.le
    · rw [Function.comp_apply, Equiv.swap_apply_of_ne_of_ne (by omega) (by omega)]
      exact hinv.above q (by omega) h₂

/-- The scan loop, given at least `scanMeasure` iterations, ends with the cursors met and
the window partitioned around the pivot. -/
theorem partitionLoop_done (fuel : ℕ) {arr₀ arr : ℕ → Elem} {pl pr : ℕ} {st : PartitionState}
    (hinv : ScanInv pivot lo hi arr pl pr st) (hperm : PermOn lo hi arr₀ arr)
    (hfuel : scanMeasure pl pr st ≤ fuel) :
    ScanDone pivot lo hi arr₀ (partitionLoop pivot fuel arr pl pr st) := by
  induction fuel generalizing arr pl pr st with
  | zero =>
    cases st with
    | scanLeft => simp [scanMeasure] at hfuel
    | scanRight => exact hinv.done hperm (by simp [scanMeasure] at hfuel; omega)
  | succ fuel ih =>
    unfold partitionLoop
    by_cases hlt : pl < pr
    · rw [if_pos hlt]
      cases st with
      | scanLeft =>
        dsimp only
        split_ifs with hgt
        · exact ih (hinv.scanLeft_stop hgt) hperm (by simp only [scanMeasure] at hfuel ⊢; omega)
        · exact ih (hinv.scanLeft_advance hlt hgt) hperm (by simp only [scanMeasure] at hfuel ⊢; omega)
      | scanRight =>
        dsimp only
        split_ifs with hbelow
        · obtain ⟨hlt', hinv'⟩ := hinv.scanRight_swap hlt hbelow
          have hlo := hinv.lo_le
          have hhi := hinv.le_hi
          exact ih hinv' (hperm.trans (PermOn.swap (by omega) (by omega) arr))
            (by simp only [scanMeasure] at hfuel ⊢; omega)
        · exact ih (hinv.scanRight_retreat hlt hbelow) hperm
            (by simp only [scanMeasure] at hfuel ⊢; omega)
    · rw [if_neg hlt]
      exact hinv.done hperm (not_lt.1 hlt)

theorem partitionLoop_of_le (fuel : ℕ) (arr : ℕ → Elem) {pl pr : ℕ} (h : pr ≤ pl)
    (st : PartitionState) : partitionLoop pivot fuel arr pl pr st = (arr, pl, pr) := by
  cases fuel <;> simp [partitionLoop, Nat.not_lt.2 h]

/-- Every iteration lowers `scanMeasure`, so once the fuel covers it the loop has left by its
own condition `partition_left < partition_right`: more fuel changes nothing. -/
theorem partitionLoop_fuel_congr :
    ∀ (fuel fuel' : ℕ) (arr : ℕ → Elem) (pl pr : ℕ) (st : PartitionState),
      scanMeasure pl pr st ≤ fuel → scanMeasure pl pr st ≤ fuel' →
      partitionLoop pivot fuel arr pl pr st = partitionLoop pivot fuel' arr pl pr st
  | 0, fuel', arr, pl, pr, st, h, _ => by
    have : pr ≤ pl := by cases st <;> simp only [scanMeasure] at h <;> omega
    rw [partitionLoop_of_le 0 arr this, partitionLoop_of_le fuel' arr this]
  | fuel + 1, 0, arr, pl, pr, st, _, h => by
    have : pr ≤ pl := by cases st <;> simp only [scanMeasure] at h <;> omega
    rw [partitionLoop_of_le _ arr this, partitionLoop_of_le 0 arr this]
  | fuel + 1, fuel' + 1, arr, pl, pr, st, h, h' => by
    have ih : ∀ arr pl' pr' st', scanMeasure pl' pr' st' < scanMeasure pl pr st →
        partitionLoop pivot fuel arr pl' pr' st' = partitionLoop pivot fuel' arr pl' pr' st' :=
      fun arr pl' pr' st' hlt => partitionLoop_fuel_congr fuel fuel' arr pl' pr' st' (by omega)
        (by omega)
    simp only [partitionLoop]
    by_cases hlt : pl < pr
    · rw [if_pos hlt, if_pos hlt]
      cases st with
      | scanLeft =>
        dsimp only
        split_ifs <;> exact ih _ _ _ _ (by simp only [scanMeasure]; omega)
      | scanRight =>
        dsimp only
        split_ifs <;> exact ih _ _ _ _ (by simp only [scanMeasure]; omega)
    · rw [if_neg hlt, if_neg hlt]

end Scan

/-! ### The partition of a window -/

/-- What `partitionWindow` leaves from `arr` on `[left, right)`: `partition_right`, and
`partition_left` one above it on the master, where the pivot sits between them; the records
below `partition_right` at most the pivot and those from `partition_left` on at least it,
all of them permuted within the window. -/
structure Partitioned (arr : ℕ → Elem) (left right : ℕ) (isMaster : Bool) (pivot : Sample)
    (r : (ℕ → Elem) × ℕ × ℕ) : Prop where
  left_le : left ≤ r.2.2
  pl_eq : r.2.1 = r.2.2 + isMaster.toNat
  le_right : r.2.1 ≤ right
  below : ∀ p, left ≤ p → p < r.2.2 → (r.1 p).rank ≤ pivot.rank
  above : ∀ q, r.2.1 ≤ q → q < right → pivot.rank ≤ (r.1 q).rank
  pivot_at : isMaster = true → r.1 r.2.2 = arr left
  perm : PermOn left right arr r.1

theorem partitionWindow_partitioned (arr : ℕ → Elem) {left right : ℕ} (isMaster : Bool)
    (pivot : Sample) (hle : left ≤ right) (hlt : isMaster = true → left < right) :
    Partitioned arr left right isMaster pivot (partitionWindow arr left right isMaster pivot) := by
  have hlo : left + isMaster.toNat ≤ right := by cases isMaster; exacts [hle, hlt rfl]
  have hinv : ScanInv pivot (left + isMaster.toNat) right arr (left + isMaster.toNat) right .scanLeft :=
    ⟨le_rfl, hlo, le_rfl, fun _ h₁ h₂ => absurd h₂ (not_lt.2 h₁),
      fun _ h₁ h₂ => absurd h₂ (not_lt.2 h₁), fun h => by cases h⟩
  have hdone := partitionLoop_done (2 * (right - left) + 1) hinv (PermOn.refl _ _ arr)
    (by simp only [scanMeasure]; omega)
  unfold partitionWindow
  generalize partitionLoop pivot _ arr _ right .scanLeft = r at hdone
  obtain ⟨arr', pl, pr⟩ := r
  dsimp only [ScanDone] at hdone
  obtain ⟨h₁, rfl, h₃, hbelow, habove, hperm⟩ := hdone
  dsimp only
  cases isMaster with
  | false =>
    simp only [Bool.toNat_false, Nat.add_zero] at h₁ hbelow hperm
    exact ⟨h₁, rfl, h₃, hbelow, habove, (fun h => by cases h), hperm⟩
  | true =>
    simp only [Bool.toNat_true, if_true] at h₁ hbelow hperm ⊢
    have hleft : arr' left = arr left := hperm.apply_of_not_mem (by omega)
    refine ⟨by dsimp only; omega, by dsimp only [Bool.toNat_true]; omega, h₃, fun p hp₁ hp₂ => ?_,
      fun q hq₁ hq₂ => ?_, fun _ => ?_,
      (hperm.mono (Nat.le_succ left) le_rfl).trans (PermOn.swap (by omega) (by omega) arr')⟩ <;>
      dsimp only at *
    · rcases Nat.eq_or_lt_of_le hp₁ with rfl | hp₁
      · rw [Function.comp_apply, Equiv.swap_apply_right]
        exact hbelow _ (by omega) (by omega)
      · rw [Function.comp_apply, Equiv.swap_apply_of_ne_of_ne (by omega) (by omega)]
        exact hbelow p hp₁ (by omega)
    · rw [Function.comp_apply, Equiv.swap_apply_of_ne_of_ne (by omega) (by omega)]
      exact habove q hq₁ hq₂
    · rw [Function.comp_apply, Equiv.swap_apply_left, hleft]

/-- The scan loop of `distributed_quickselect_helper` on the window `[left, right)`, which
the master starts at `left + 1`: with the fuel `scanMeasure` gives or any more, it stops at one
point `p` with `partition_left = partition_right = p`, having permuted only
`[left + m, right)`, the records below `p` at most the pivot and those from `p` on at least
it. The partition then leaves `partition_left = p` and `partition_right = p - m`, the
master's pivot record at `partition_right` with every record of `[left, p - 1)` at most the
pivot, and the windows `[left, partition_right)` and `[partition_left, right)` ordered and
disjoint. -/
theorem quickselect_partition_scan (arr : ℕ → Elem) {left right : ℕ} (isMaster : Bool)
    (pivot : Sample) (hle : left ≤ right) (hlt : isMaster = true → left < right) :
    ∃ arr' p, (∀ fuel, scanMeasure (left + isMaster.toNat) right .scanLeft ≤ fuel →
        partitionLoop pivot fuel arr (left + isMaster.toNat) right .scanLeft = (arr', p, p)) ∧
      ScanDone pivot (left + isMaster.toNat) right arr (arr', p, p) ∧
      (partitionWindow arr left right isMaster pivot).2 = (p, p - isMaster.toNat) ∧
      Partitioned arr left right isMaster pivot (partitionWindow arr left right isMaster pivot) := by
  have hlo : left + isMaster.toNat ≤ right := by cases isMaster; exacts [hle, hlt rfl]
  have hinv : ScanInv pivot (left + isMaster.toNat) right arr (left + isMaster.toNat) right
      .scanLeft :=
    ⟨le_rfl, hlo, le_rfl, fun _ h₁ h₂ => absurd h₂ (not_lt.2 h₁),
      fun _ h₁ h₂ => absurd h₂ (not_lt.2 h₁), fun h => by cases h⟩
  have hdone := partitionLoop_done _ hinv (PermOn.refl _ _ arr) le_rfl
  have hfuel : ∀ fuel, scanMeasure (left + isMaster.toNat) right .scanLeft ≤ fuel →
      partitionLoop pivot fuel arr (left + isMaster.toNat) right .scanLeft =
        partitionLoop pivot (scanMeasure (left + isMaster.toNat) right .scanLeft) arr
          (left + isMaster.toNat) right .scanLeft :=
    fun fuel h => partitionLoop_fuel_congr fuel _ _ _ _ _ h le_rfl
  have hwin := hfuel (2 * (right - left) + 1) (by simp only [scanMeasure]; omega)
  revert hdone hfuel hwin
  generalize partitionLoop pivot (scanMeasure _ right .scanLeft) arr _ right .scanLeft = r
  obtain ⟨arr', pl, pr⟩ := r
  rintro hdone hfuel hwin
  obtain rfl : pl = pr := hdone.2.1
  refine ⟨arr', pl, hfuel, hdone, ?_, partitionWindow_partitioned arr isMaster pivot hle hlt⟩
  simp only [partitionWindow, hwin]
  cases isMaster <;> rfl

theorem quickselect_partition_scan_three : 0 ≤ 3 ∧ (true = true → 0 < 3) ∧
    ∃ arr' p, (∀ fuel, scanMeasure (0 + true.toNat) 3 .scanLeft ≤ fuel →
        partitionLoop ⟨1, 0⟩ fuel (fun q => ⟨(q + 1) % 3, q, 0⟩) (0 + true.toNat) 3 .scanLeft =
          (arr', p, p)) ∧
      ScanDone ⟨1, 0⟩ (0 + true.toNat) 3 (fun q => ⟨(q + 1) % 3, q, 0⟩) (arr', p, p) ∧
      (partitionWindow (fun q => ⟨(q + 1) % 3, q, 0⟩) 0 3 true ⟨1, 0⟩).2 = (p, p - true.toNat) ∧
      Partitioned (fun q => ⟨(q + 1) % 3, q, 0⟩) 0 3 true ⟨1, 0⟩
        (partitionWindow (fun q => ⟨(q + 1) % 3, q, 0⟩) 0 3 true ⟨1, 0⟩) :=
  ⟨by decide, fun _ => by decide,
    quickselect_partition_scan _ true ⟨1, 0⟩ (by decide) fun _ => by decide⟩

end DistributedSgxSort
