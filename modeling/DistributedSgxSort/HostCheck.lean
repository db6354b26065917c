import DistributedSgxSort.Network
import DistributedSgxSort.Layout
import DistributedSgxSort.Memory
import Mathlib.Data.List.Chain

/-! The check of the sorted array at the end of `main` in `parallel.c`.

Each worker decrypts its own records in index order, keeps the first key in `first_key`,
and prints "Not sorted correctly!" and leaves the loop at the first key below `prev_key`.
Then every worker but the last sends its `prev_key` to the next one, which prints "Not
sorted correctly at enclave boundaries!" if that key exceeds its own `first_key`. Both keys
start at 0 and keep that value on a worker with no records. The `MPI_Barrier` calls between
the workers' turns only order the printing, and a failed `elem_decrypt` is not modelled.

The check is silent on every sorted array exactly when no worker with no records follows
one whose last key is positive; a silent check always means a sorted array. -/
namespace DistributedSgxSort

/-! ### One worker -/

/-- The loop over a worker's records after its first: `prev_key` as it leaves the loop,
and whether it printed "Not sorted correctly!" and left by `break`. -/
def checkLoop (prevKey : ℕ) : List ℕ → ℕ × Bool
  | [] => (prevKey, false)
  | key :: keys => if prevKey > key then (prevKey, true) else checkLoop key keys

/-- `first_key`, `prev_key` and whether the worker printed, after its loop over `keys`. -/
def checkLocal : List ℕ → ℕ × ℕ × Bool
  | [] => (0, 0, false)
  | key :: keys => (key, checkLoop key keys)

def notSortedMsg : String := "Not sorted correctly!\n"

def boundaryMsg : String := "Not sorted correctly at enclave boundaries!\n"

/-- The keys of worker `worldRank`'s records `local_start ≤ i < local_start + local_length`
in the order it decrypts them; `key i` is the key of the record at global index `i`. -/
def localKeys (length worldSize worldRank : ℕ) (key : ℕ → ℕ) : List ℕ :=
  readRange key (localStart length worldSize worldRank) (localLength length worldSize worldRank)

/-- The receive of the boundary check, on a worker that received `prev_key` from the
previous one. -/
def hostCheckRecv (worldRank : ℕ) (keys : List ℕ) : Proc ℕ (List String) :=
  let printed := if (checkLocal keys).2.2 then [notSortedMsg] else []
  if worldRank > 0 then
    .recv (worldRank - 1) fun prevKey =>
      .done (printed ++ if prevKey > (checkLocal keys).1 then [boundaryMsg] else [])
  else .done printed

/-- What worker `worldRank` runs of the check; its result is the lines it prints. -/
def hostCheck (worldSize worldRank : ℕ) (keys : List ℕ) : Proc ℕ (List String) :=
  if worldRank < worldSize - 1 then
    .send (worldRank + 1) (checkLocal keys).2.1 (hostCheckRecv worldRank keys)
  else hostCheckRecv worldRank keys

/-- The check on `worldSize` workers, worker `r` holding `keys r`. -/
def hostCheckNet (worldSize : ℕ) (keys : ℕ → List ℕ) : Net ℕ (List String) where
  procs r := if r < worldSize then hostCheck worldSize r (keys r) else .stop
  chans _ := []

theorem checkLoop_eq_false_iff (prevKey : ℕ) (keys : List ℕ) :
    (checkLoop prevKey keys).2 = false ↔ (prevKey :: keys).Sorted (· ≤ ·) := by
  rw [List.Sorted, ← List.chain_iff_pairwise]
  induction keys generalizing prevKey with
  | nil => simp [checkLoop]
  | cons key keys ih =>
    rw [checkLoop, List.chain_cons, ← ih]
    by_cases h : prevKey > key
    · simp [h]
    · simp [h, not_lt.1 h]

theorem checkLoop_fst {prevKey : ℕ} {keys : List ℕ} (h : (checkLoop prevKey keys).2 = false) :
    (checkLoop prevKey keys).1 = keys.getLastD prevKey := by
  induction keys generalizing prevKey with
  | nil => rfl
  | cons key keys ih =>
    unfold checkLoop at h ⊢
    by_cases hk : prevKey > key
    · simp [hk] at h
    · simp only [hk, if_false] at h ⊢
      rw [ih h, List.getLastD_cons]

@[simp] theorem checkLocal_fst (keys : List ℕ) : (checkLocal keys).1 = keys.headD 0 := by
  cases keys <;> rfl

/-- A worker prints nothing of its own exactly when its records are sorted. -/
theorem checkLocal_eq_false_iff (keys : List ℕ) :
    (checkLocal keys).2.2 = false ↔ keys.Sorted (· ≤ ·) := by
  cases keys with
  | nil => simp [checkLocal]
  | cons key keys => exact checkLoop_eq_false_iff key keys

/-- On sorted records `prev_key` is the last key. -/
theorem checkLocal_prevKey {keys : List ℕ} (h : keys.Sorted (· ≤ ·)) :
    (checkLocal keys).2.1 = keys.getLastD 0 := by
  cases keys with
  | nil => rfl
  | cons key keys =>
    rw [List.getLastD_cons]
    exact checkLoop_fst ((checkLocal_eq_false_iff _).2 h)

theorem headD_le_of_sorted {keys : List ℕ} (h : keys.Sorted (· ≤ ·)) {b : ℕ} (hb : b ∈ keys) :
    keys.headD 0 ≤ b := by
  cases keys with
  | nil => cases hb
  | cons key keys =>
    rcases List.mem_cons.1 hb with rfl | hb
    · exact le_rfl
    · exact List.rel_of_sorted_cons h b hb

theorem le_getLastD_of_sorted {keys : List ℕ} (h : keys.Sorted (· ≤ ·)) {b : ℕ} (hb : b ∈ keys) :
    b ≤ keys.getLastD 0 := by
  obtain ⟨l, x, rfl⟩ := (List.eq_nil_or_concat keys).resolve_left (List.ne_nil_of_mem hb)
  rw [List.concat_eq_append] at h hb ⊢
  rw [List.getLastD_concat]
  rcases List.mem_append.1 hb with hb | hb
  · exact (List.pairwise_append.1 h).2.2 b hb x (List.mem_singleton_self x)
  · exact le_of_eq (List.mem_singleton.1 hb)

theorem headD_le_getLastD {keys : List ℕ} (h : keys.Sorted (· ≤ ·)) :
    keys.headD 0 ≤ keys.getLastD 0 := by
  cases keys with
  | nil => exact le_rfl
  | cons key keys => exact le_getLastD_of_sorted h (List.mem_cons_self key keys)

theorem getLastD_le {keys : List ℕ} {b : ℕ} (h : ∀ x ∈ keys, x ≤ b) : keys.getLastD 0 ≤ b := by
  rcases List.eq_nil_or_concat keys with rfl | ⟨l, x, rfl⟩
  · exact Nat.zero_le b
  · rw [List.concat_eq_append, List.getLastD_concat]
    exact h x (by simp)

/-! ### The network of workers -/

section Net

variable (W : ℕ) (keys : ℕ → List ℕ)

/-- The lines worker `r` prints, read off its own keys and its predecessor's. -/
def hostReport (r : ℕ) : List String :=
  (if (checkLocal (keys r)).2.2 then [notSortedMsg] else []) ++
    if r > 0 ∧ (checkLocal (keys (r - 1))).2.1 > (keys r).headD 0 then [boundaryMsg] else []

/-- Every worker below `W` has returned its report and no message is left. -/
def hostCheckFinal : Net ℕ (List String) where
  procs r := if r < W then .done (hostReport keys r) else .stop
  chans _ := []

/-- Workers below `k` have returned, and the message worker `k - 1` sent waits for `k`. -/
def hostCheckStage (k : ℕ) : Net ℕ (List String) where
  procs r := if r < k then (hostCheckFinal W keys).procs r else (hostCheckNet W keys).procs r
  chans c := if c = (k - 1, k) ∧ 0 < k ∧ k < W then [(checkLocal (keys (k - 1))).2.1] else []

/-- The steps of worker `r`: its send, if it has a successor, then its receive, if it has a
predecessor. -/
def hostSteps (r : ℕ) : List ℕ :=
  (if r < W - 1 then [r] else []) ++ if r > 0 then [r] else []

theorem hostCheckFinal_terminal : (hostCheckFinal W keys).Terminal := by
  intro r
  by_cases hr : r < W <;> simp [Net.step, hostCheckFinal, hr]

theorem hostCheckStage_zero : hostCheckStage W keys 0 = hostCheckNet W keys := by
  simp [hostCheckStage, hostCheckNet]

theorem hostCheckStage_last : hostCheckStage W keys W = hostCheckFinal W keys := by
  simp only [hostCheckStage, hostCheckFinal, hostCheckNet, lt_irrefl, and_false, if_false,
    Net.mk.injEq, and_true]
  funext r
  by_cases hr : r < W <;> simp [hr]

/-- The receive of worker `r`, its own send done, returns its report. -/
theorem run_hostCheckRecv {s : Net ℕ (List String)} {r : ℕ}
    (hp : s.procs r = hostCheckRecv r (keys r))
    (hc : 0 < r → s.chans (r - 1, r) = [(checkLocal (keys (r - 1))).2.1]) :
    s.run (if r > 0 then [r] else []) = some ⟨Function.update s.procs r (.done (hostReport keys r)),
      if r > 0 then Function.update s.chans (r - 1, r) [] else s.chans⟩ := by
  by_cases hr : r > 0
  · simp only [hr, if_true, Net.run_cons, Net.run_nil,
      Net.step_recv (by rw [hp, hostCheckRecv, if_pos hr]) (hc hr), Option.some_bind]
    simp [hostReport, hr]
  · obtain rfl : r = 0 := by omega
    have h0 : s.procs 0 = .done (hostReport keys 0) := by simp [hp, hostCheckRecv, hostReport]
    simp only [lt_irrefl, if_false, Net.run_nil]
    rw [← h0, Function.update_eq_self]

/-- Worker `k` returning its report is what moves the workers' programs to the next stage. -/
theorem hostCheckStage_succ_procs {k : ℕ} (hk : k < W) :
    Function.update (hostCheckStage W keys k).procs k (.done (hostReport keys k)) =
      (hostCheckStage W keys (k + 1)).procs := by
  funext r
  by_cases hr : r = k
  · subst hr; simp [hostCheckStage, hostCheckFinal, hk]
  · simp [Function.update_noteq hr, hostCheckStage, hr, Nat.lt_succ_iff_lt_or_eq]

/-- Worker `k` sends its `prev_key` on and receives its predecessor's: the next stage. -/
theorem run_hostSteps {k : ℕ} (hk : k < W) :
    (hostCheckStage W keys k).run (hostSteps W k) = some (hostCheckStage W keys (k + 1)) := by
  have hp : (hostCheckStage W keys k).procs k = hostCheck W k (keys k) := by
    simp [hostCheckStage, hostCheckNet, hk]
  have hne : ((k - 1, k) : ℕ × ℕ) ≠ (k, k + 1) := by simp
  by_cases hs : k < W - 1
  · rw [hostSteps, if_pos hs, List.singleton_append, Net.run_cons,
      Net.step_send (hp.trans (if_pos hs)), Option.some_bind,
      run_hostCheckRecv keys (by simp) fun h => by simp [Function.update_noteq hne, hostCheckStage, h, hk]]
    refine congrArg some (congrArg₂ Net.mk ((Function.update_idem _ _ _).trans
      (hostCheckStage_succ_procs W keys hk)) (funext fun c => ?_))
    by_cases h1 : c = (k, k + 1)
    · subst h1
      have hW : k + 1 < W := by omega
      by_cases h0 : k > 0 <;> simp [hostCheckStage, h0, hne.symm, hW]
    · by_cases h2 : c = (k - 1, k) <;> by_cases h0 : k > 0 <;>
        simp [hostCheckStage, h0, h1, h2, Function.update_apply]
  · rw [hostSteps, if_neg hs, List.nil_append,
      run_hostCheckRecv keys (hp.trans (if_neg hs)) fun h => by simp [hostCheckStage, h, hk]]
    refine congrArg some (congrArg₂ Net.mk (hostCheckStage_succ_procs W keys hk) (funext fun c => ?_))
    by_cases h2 : c = (k - 1, k) <;> by_cases h0 : k > 0 <;>
      simp [hostCheckStage, h0, h2, Function.update_apply] <;> omega

theorem run_hostSchedule : ∀ k ≤ W,
    (hostCheckNet W keys).run ((List.range k).flatMap (hostSteps W)) = some (hostCheckStage W keys k)
  | 0, _ => by rw [hostCheckStage_zero]; rfl
  | k + 1, hk => by
    rw [List.range_succ, List.flatMap_append, List.flatMap_singleton, Net.run_append,
      run_hostSchedule k (by omega), Option.some_bind, run_hostSteps W keys (by omega)]

theorem length_hostSchedule : ∀ k ≤ W,
    ((List.range k).flatMap (hostSteps W)).length = min k (W - 1) + (k - 1)
  | 0, _ => by simp
  | k + 1, hk => by
    rw [List.range_succ, List.flatMap_append, List.flatMap_singleton, List.length_append,
      length_hostSchedule k (by omega), hostSteps, List.length_append]
    split_ifs <;> simp only [List.length_singleton, List.length_nil] <;> omega

/-- The check on `W` workers, whatever their keys and whatever the schedule: every run can be
completed to the state where every worker has returned the lines `hostReport` gives and no
message is left, in `2 * (W - 1)` steps in all (each boundary message sent once and received
once), and a run that can go no further is in that state. -/
theorem host_check_complete :
    ∀ ws s', (hostCheckNet W keys).run ws = some s' →
      (∃ ws', s'.run ws' = some (hostCheckFinal W keys) ∧ ws.length + ws'.length = 2 * (W - 1)) ∧
      (s'.Terminal → s' = hostCheckFinal W keys) := by
  have hrun := run_hostSchedule W keys W le_rfl
  rw [hostCheckStage_last] at hrun
  have hlen := length_hostSchedule W W le_rfl
  intro ws s' h
  obtain ⟨ws', hws', hl⟩ := Net.run_complete (hostCheckFinal_terminal W keys) hrun h
  exact ⟨⟨ws', hws', by omega⟩, Net.eq_of_terminal (hostCheckFinal_terminal W keys) hrun h⟩

theorem host_check_complete_two_workers :
    ∃ s', (hostCheckNet 2 fun r => [r]).run [0] = some s' ∧
      (∃ ws', s'.run ws' = some (hostCheckFinal 2 fun r => [r]) ∧
        [0].length + ws'.length = 2 * (2 - 1)) ∧
      (s'.Terminal → s' = hostCheckFinal 2 fun r => [r]) :=
  ⟨_, rfl, host_check_complete 2 _ [0] _ rfl⟩

/-! ### What the reports say -/

theorem hostReport_eq_nil_iff (r : ℕ) :
    hostReport keys r = [] ↔ (keys r).Sorted (· ≤ ·) ∧
      (r > 0 → (checkLocal (keys (r - 1))).2.1 ≤ (keys r).headD 0) := by
  simp [hostReport, ← checkLocal_eq_false_iff]

/-- Silent workers below `k` hold, in rank order, sorted keys, none above the last key of
worker `k - 1` (0 if it holds none). -/
theorem sorted_of_hostReport_eq_nil : ∀ k, (∀ r < k, hostReport keys r = []) →
    ((List.range k).flatMap keys).Sorted (· ≤ ·) ∧
      ∀ x ∈ (List.range k).flatMap keys, x ≤ (keys (k - 1)).getLastD 0
  | 0, _ => by simp
  | k + 1, h => by
    obtain ⟨hs, hb⟩ := (hostReport_eq_nil_iff keys k).1 (h k (by omega))
    obtain ⟨ih, ihb⟩ := sorted_of_hostReport_eq_nil k fun r hr => h r (by omega)
    have hle : ∀ x ∈ (List.range k).flatMap keys, x ≤ (keys k).headD 0 := fun x hx => by
      have hk : k > 0 := Nat.pos_of_ne_zero fun hk => by subst hk; simp at hx
      rw [checkLocal_prevKey ((hostReport_eq_nil_iff keys (k - 1)).1 (h (k - 1) (by omega))).1]
        at hb
      exact (ihb x hx).trans (hb hk)
    rw [List.range_succ, List.flatMap_append, List.flatMap_singleton, Nat.add_sub_cancel]
    refine ⟨List.pairwise_append.2 ⟨ih, hs, fun a ha b hb' =>
      (hle a ha).trans (headD_le_of_sorted hs hb')⟩, fun x hx => ?_⟩
    rcases List.mem_append.1 hx with hx | hx
    · exact (hle x hx).trans (headD_le_getLastD hs)
    · exact le_getLastD_of_sorted hs hx

/-- On keys sorted in rank order a worker prints only the boundary line, and exactly when it
holds no records (so its `first_key` stays 0) while its predecessor's last key is positive. -/
theorem hostReport_of_sorted (hs : ((List.range W).flatMap keys).Sorted (· ≤ ·)) {r : ℕ}
    (hr : r < W) : hostReport keys r =
      if r > 0 ∧ keys r = [] ∧ (keys (r - 1)).getLastD 0 > 0 then [boundaryMsg] else [] := by
  obtain ⟨hall, hcross⟩ := List.pairwise_flatMap.1 hs
  have hsr : (keys r).Sorted (· ≤ ·) := hall r (List.mem_range.2 hr)
  rw [hostReport, if_neg (by simp [(checkLocal_eq_false_iff _).2 hsr]), List.nil_append]
  by_cases h0 : r > 0
  · have hprev := checkLocal_prevKey (hall (r - 1) (List.mem_range.2 (by omega)))
    have hx := List.pairwise_iff_getElem.1 hcross (r - 1) r (by simp; omega) (by simp; omega)
      (by omega)
    simp only [List.getElem_range] at hx
    rw [hprev]
    rcases hk : keys r with _ | ⟨y, t⟩
    · simp [h0]
    · have : (keys (r - 1)).getLastD 0 ≤ y :=
        getLastD_le fun x h => hx x h y (by rw [hk]; exact List.mem_cons_self y t)
      rw [if_neg fun h => absurd this (not_le.2 h.2), if_neg fun h => List.cons_ne_nil y t h.2.1]
  · simp [h0]

end Net

/-! ### The check of `main` over the host layout -/

section Layout

variable {N W : ℕ}

/-- The workers' records, in rank order, are the whole array. -/
theorem flatMap_localKeys_range (key : ℕ → ℕ) : ∀ k,
    (List.range k).flatMap (fun r => localKeys N W r key) = readRange key 0 (localStart N W k)
  | 0 => by
    have : (W - 1) / W = 0 := by rcases W with _ | W; rfl; exact Nat.div_eq_of_lt (by omega)
    simp [localStart, this]
  | k + 1 => by
    rw [List.range_succ, List.flatMap_append, List.flatMap_singleton, flatMap_localKeys_range key k,
      localKeys, show localStart N W (k + 1) = localStart N W k + localLength N W k by
        rw [localLength_eq]; have := localStart_mono (N := N) (W := W) (Nat.le_add_right k 1); omega,
      readRange_add, Nat.zero_add]

theorem flatMap_localKeys (hW : 0 < W) (key : ℕ → ℕ) :
    (List.range W).flatMap (fun r => localKeys N W r key) = readRange key 0 N := by
  rw [flatMap_localKeys_range, localStart_last hW]

/-- With at least as many records as workers, every worker holds one. -/
theorem localLength_pos (hWN : W ≤ N) {r : ℕ} (hr : r < W) : 0 < localLength N W r := by
  have hW : 0 < W := by omega
  rw [localLength_eq, Nat.sub_pos_iff_lt]
  unfold localStart
  calc (r * N + W - 1) / W < (r * N + W - 1) / W + 1 := Nat.lt_succ_self _
    _ = (r * N + W - 1 + W) / W := (Nat.add_div_right _ hW).symm
    _ ≤ ((r + 1) * N + W - 1) / W := Nat.div_le_div_right (by rw [Nat.succ_mul]; omega)

/-- A check that prints nothing on any worker means the array is sorted, for any numbers of
records and workers. -/
theorem host_check_sound (hW : 0 < W) (key : ℕ → ℕ)
    (h : ∀ r < W, hostReport (fun r => localKeys N W r key) r = []) :
    (readRange key 0 N).Sorted (· ≤ ·) := by
  rw [← flatMap_localKeys hW key]
  exact (sorted_of_hostReport_eq_nil _ W h).1

theorem host_check_sound_three_two :
    0 < 2 ∧ (∀ r < 2, hostReport (fun r => localKeys 3 2 r id) r = []) ∧
      (readRange id 0 3).Sorted (· ≤ ·) :=
  have h : ∀ r < 2, hostReport (fun r => localKeys 3 2 r id) r = [] := by decide
  ⟨by decide, h, host_check_sound (by decide) id h⟩

theorem localKeys_eq_nil_iff (key : ℕ → ℕ) (r : ℕ) :
    localKeys N W r key = [] ↔ localLength N W r = 0 := by
  simp [localKeys, readRange]

/-- On a sorted array a worker prints only the boundary line, and exactly when it holds no
records while the last key its predecessor holds is positive: a false alarm. -/
theorem host_check_sorted (hW : 0 < W) {key : ℕ → ℕ} (hs : (readRange key 0 N).Sorted (· ≤ ·))
    {r : ℕ} (hr : r < W) :
    hostReport (fun r => localKeys N W r key) r =
      if r > 0 ∧ localLength N W r = 0 ∧ (localKeys N W (r - 1) key).getLastD 0 > 0 then
        [boundaryMsg] else [] := by
  rw [hostReport_of_sorted W _ (by rwa [flatMap_localKeys hW]) hr]
  simp only [localKeys_eq_nil_iff]

theorem host_check_sorted_one_two :
    0 < 2 ∧ (readRange (fun _ => 5) 0 1).Sorted (· ≤ ·) ∧ 1 < 2 ∧
      hostReport (fun r => localKeys 1 2 r fun _ => 5) 1 =
        if 1 > 0 ∧ localLength 1 2 1 = 0 ∧ (localKeys 1 2 (1 - 1) fun _ => 5).getLastD 0 > 0 then
          [boundaryMsg] else [] :=
  ⟨by decide, by decide, by decide, host_check_sorted (by decide) (by decide) (by decide)⟩

/-- With at least as many records as workers the check is exact: no worker prints anything
if and only if the array is sorted. -/
theorem host_check_exact (hW : 0 < W) (hWN : W ≤ N) (key : ℕ → ℕ) :
    (∀ r < W, hostReport (fun r => localKeys N W r key) r = []) ↔
      (readRange key 0 N).Sorted (· ≤ ·) := by
  rw [← flatMap_localKeys hW key]
  refine ⟨fun h => (sorted_of_hostReport_eq_nil _ W h).1, fun hs r hr => ?_⟩
  rw [hostReport_of_sorted W _ hs hr, if_neg fun h => (localLength_pos hWN hr).ne'
    ((localKeys_eq_nil_iff key r).1 h.2.1)]

theorem host_check_exact_three_two :
    0 < 2 ∧ 2 ≤ 3 ∧ ((∀ r < 2, hostReport (fun r => localKeys 3 2 r id) r = []) ↔
      (readRange id 0 3).Sorted (· ≤ ·)) :=
  ⟨by decide, by decide, host_check_exact (by decide) (by decide) id⟩

end Layout

end DistributedSgxSort
