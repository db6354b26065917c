import DistributedSgxSort.Quickselect
import DistributedSgxSort.Layout

/-! The `W` workers running `distributed_quickselect_helper` on one network realise the
synchronous-round model: there is a schedule, round by round, after which every worker has
finished with the model's state and `ret` and no message is left on any channel. By Kahn
determinacy every other schedule ends there too. -/
namespace DistributedSgxSort

variable {α : Type} {W : ℕ} {s : Net QsMsg α}

/-- A worker's continuation applied to what the synchronous model computed for it; `stop`
where the model ran out of fuel. -/
def syncCont (k : ℕ → QsState × ℤ → Proc QsMsg α) (w : ℕ) :
    Option ((ℕ → QsState) × ℤ) → Proc QsMsg α
  | some (sts, ret) => k w (sts w, ret)
  | none => .stop

/-- One round after the election: the master broadcasts its pivot, every worker partitions
its window, the master gathers the partition sizes and broadcasts their sum `cur_pivot`,
and every worker is left at the dispatch with the same `cur_pivot`. -/
theorem run_quickselectRound {master : ℕ} (hm : master < W) {targets : ℕ → ℕ}
    {recurse : ℕ → ℕ → ℕ → ℕ → ℕ → QsState → Proc QsMsg (QsState × ℤ)} {tOff num : ℕ}
    {left right : ℕ → ℕ} {sts : ℕ → QsState} {k : ℕ → QsState × ℤ → Proc QsMsg α}
    (hc : ∀ c, s.chans c = [])
    (hs : ∀ w < W, s.procs w = quickselectRound W w targets (recurse w) tOff num (left w) (right w)
      (sts w) master >>= k w) :
    ∃ sched s', s.run sched = some s' ∧ (∀ c, s'.chans c = []) ∧
      (∀ w, W ≤ w → s'.procs w = s.procs w) ∧
      ∀ w < W, s'.procs w = dispatch targets (recurse w) tOff num (left w) (right w)
        (roundPart sts left right master w) ((sts master).arr (left master)).sample (sts w)
        (roundCurPivot W sts left right master) >>= k w := by
  let p := ((sts master).arr (left master)).sample
  let D := fun w => dispatch targets (recurse w) tOff num (left w) (right w)
    (roundPart sts left right master w) p (sts w)
  let G := fun w pivot => partitionRound W w targets (recurse w) tOff num (left w) (right w)
    (sts w) master pivot >>= k w
  -- the pivot broadcast
  have hr₁ : s.procs master = Proc.sendOthers master (.pivot p) (List.range W) >>= fun _ =>
      G master p := by
    rw [hs master hm]
    simp only [quickselectRound, pivotRound, ite_true, Proc.bind_assoc, Proc.pure_eq,
      Proc.done_bind, G, p]
  have hn₁ : ∀ w < W, w ≠ master → s.procs w = Proc.recvAs master QsMsg.getPivot >>= G w :=
    fun w hw hwm => by
      rw [hs w hw]
      simp only [quickselectRound, pivotRound, if_neg hwm, Proc.bind_assoc, G]
  obtain ⟨sched₁, s₁, hrun₁, hc₁, hW₁, hp₁⟩ : ∃ sched s', s.run sched = some s' ∧
      (∀ c, s'.chans c = []) ∧ (∀ w, W ≤ w → s'.procs w = s.procs w) ∧
      ∀ w < W, s'.procs w = G w p := Net.run_bcast hm rfl hc hr₁ hn₁
  -- the partition sizes, gathered by the master
  have hr₂ : s₁.procs master = Proc.recvFold master QsMsg.getSize none (fun acc _ n => acc + n)
      (List.range W) (roundPart sts left right master master).2.2 >>= fun cur =>
        Proc.sendOthers master (.size cur) (List.range W) >>= fun _ => D master cur >>= k master := by
    rw [hp₁ master hm]
    simp only [G, partitionRound, curPivotRound, ite_true, Proc.bind_assoc, Proc.pure_eq,
      Proc.done_bind, D, roundPart, p]
  have hn₂ : ∀ w < W, w ≠ master → s₁.procs w =
      .send master (.size (roundPart sts left right master w).2.2)
        (Proc.recvAs master QsMsg.getSize >>= fun cur => D w cur >>= k w) := fun w hw hwm => by
    rw [hp₁ w hw]
    simp only [G, partitionRound, curPivotRound, if_neg hwm, Proc.bind_assoc, Proc.pure_eq,
      Proc.done_bind, Proc.send_bind, D, roundPart, p]
  have hdec : ∀ i < W, i ≠ master → QsMsg.getSize (.size (roundPart sts left right master i).2.2) =
      some (roundPart sts left right master i).2.2 := fun _ _ _ => rfl
  obtain ⟨sched₂, s₂, hrun₂, hc₂, hW₂, hr₂', hn₂'⟩ : ∃ sched s', s₁.run sched = some s' ∧
      (∀ c, s'.chans c = []) ∧ (∀ w, W ≤ w → s'.procs w = s₁.procs w) ∧
      s'.procs master = (Proc.sendOthers master (.size (roundCurPivot W sts left right master))
        (List.range W) >>= fun _ => D master (roundCurPivot W sts left right master) >>= k master) ∧
      ∀ w < W, w ≠ master → s'.procs w =
        Proc.recvAs master QsMsg.getSize >>= fun cur => D w cur >>= k w :=
    Net.run_gather hm hdec hc₁ hr₂ hn₂
  -- `cur_pivot`, broadcast by the master
  obtain ⟨sched₃, s₃, hrun₃, hc₃, hW₃, hp₃⟩ : ∃ sched s', s₂.run sched = some s' ∧
      (∀ c, s'.chans c = []) ∧ (∀ w, W ≤ w → s'.procs w = s₂.procs w) ∧
      ∀ w < W, s'.procs w = D w (roundCurPivot W sts left right master) >>= k w :=
    Net.run_bcast hm rfl hc₂ hr₂' hn₂'
  refine ⟨sched₁ ++ sched₂ ++ sched₃, s₃, Net.run_trans (Net.run_trans hrun₁ hrun₂) hrun₃,
    hc₃, fun w hw => ?_, fun w hw => hp₃ w hw⟩
  rw [hW₃ w hw, hW₂ w hw, hW₁ w hw]

/-- The network realises the synchronous model: from every worker at the same call of
`distributed_quickselect_helper` and empty channels, a round-by-round schedule leaves every
worker at its continuation applied to the model's state and `ret`, and the channels empty. -/
theorem run_quickselectHelper {targets : ℕ → ℕ} (fuel : ℕ) :
    ∀ {tOff num : ℕ} {left right : ℕ → ℕ} {sts : ℕ → QsState}
      {k : ℕ → QsState × ℤ → Proc QsMsg α} {s : Net QsMsg α}, (∀ c, s.chans c = []) →
    (∀ w < W, s.procs w =
      quickselectHelper W w targets fuel tOff num (left w) (right w) (sts w) >>= k w) →
    ∃ sched s', s.run sched = some s' ∧ (∀ c, s'.chans c = []) ∧
      (∀ w, W ≤ w → s'.procs w = s.procs w) ∧
      ∀ w < W, s'.procs w = syncCont k w (syncHelper W targets fuel tOff num left right sts) := by
  induction fuel with
  | zero =>
    intro tOff num left right sts k s hc hs
    exact ⟨[], s, rfl, hc, fun _ _ => rfl, fun w hw => by rw [hs w hw]; rfl⟩
  | succ fuel ih =>
    intro tOff num left right sts k s hc hs
    by_cases hnum : num = 0
    · refine ⟨[], s, rfl, hc, fun _ _ => rfl, fun w hw => ?_⟩
      rw [hs w hw]
      simp [quickselectHelper, syncHelper, hnum, syncCont]
    have h₀ : ∀ w < W, s.procs w = (Proc.sendOthers w (.ready (decide (left w < right w)))
        (List.range W) >>= fun _ => Proc.recvFold w QsMsg.getReady (some (decide (left w < right w)))
          electMaster (List.range W) none) >>= fun master => (match master with
          | none => pure (sts w, -1)
          | some master => quickselectRound W w targets (quickselectHelper W w targets fuel) tOff num
            (left w) (right w) (sts w) master) >>= k w := fun w hw => by
      rw [hs w hw, quickselectHelper, if_neg hnum, Proc.bind_assoc]
      rfl
    have hdec : ∀ i < W, QsMsg.getReady (.ready (decide (left i < right i))) =
        some (decide (left i < right i)) := fun _ _ => rfl
    obtain ⟨sched₁, s₁, hrun₁, hc₁, hW₁, hp₁⟩ := Net.run_exchange hdec hc h₀
    cases hf : electRound W left right with
    | none =>
      refine ⟨sched₁, s₁, hrun₁, hc₁, hW₁, fun w hw => ?_⟩
      have hf' : (List.range W).foldl (fun m i => electMaster m i (decide (left i < right i))) none =
        none := hf
      simp [hp₁ w hw, hf', syncHelper_no_master hnum hf, syncCont]
    | some master =>
      have hf' : (List.range W).foldl (fun m i => electMaster m i (decide (left i < right i))) none =
        some master := hf
      obtain ⟨sched₂, s₂, hrun₂, hc₂, hW₂, hp₂⟩ :=
        run_quickselectRound (electRound_spec hf).1 hc₁ fun w hw => by simp only [hp₁ w hw, hf']; rfl
      let split := roundSplit W targets tOff num sts left right master
      let part := roundPart sts left right master
      let k' := fun w (x : QsState × ℤ) => (match x with
        | (st, ret) => if ret ≠ 0 then pure (st, ret) else quickselectHelper W w targets fuel
          (tOff + (split.1 + split.2.toNat)) (num - (split.1 + split.2.toNat)) (part w).2.1 (right w) st)
        >>= k w
      have h₃ : ∀ w < W, s₂.procs w = quickselectHelper W w targets fuel tOff split.1 (left w)
          (part w).2.2 (roundSts W targets tOff num sts left right master w) >>= k' w :=
        fun w hw => by
          rw [hp₂ w hw]
          simp only [dispatch, descend, Proc.bind_assoc]
          rfl
      obtain ⟨sched₃, s₃, hrun₃, hc₃, hW₃, hp₃⟩ := ih hc₂ h₃
      have hrun : s.run (sched₁ ++ sched₂ ++ sched₃) = some s₃ :=
        Net.run_trans (Net.run_trans hrun₁ hrun₂) hrun₃
      have hW : ∀ w, W ≤ w → s₃.procs w = s.procs w := fun w hw => by
        rw [hW₃ w hw, hW₂ w hw, hW₁ w hw]
      rw [syncHelper_master hnum hf]
      cases hL : syncHelper W targets fuel tOff split.1 left (fun w => (part w).2.2)
          (roundSts W targets tOff num sts left right master) with
      | none =>
        refine ⟨_, s₃, hrun, hc₃, hW, fun w hw => ?_⟩
        rw [hp₃ w hw, hL]
        rfl
      | some r =>
        obtain ⟨sts₁, ret₁⟩ := r
        by_cases hret : ret₁ = 0
        · have h₄ : ∀ w < W, s₃.procs w = quickselectHelper W w targets fuel
              (tOff + (split.1 + split.2.toNat)) (num - (split.1 + split.2.toNat)) (part w).2.1
              (right w) (sts₁ w) >>= k w := fun w hw => by
            rw [hp₃ w hw, hL]
            simp [syncCont, k', hret]
          obtain ⟨sched₄, s₄, hrun₄, hc₄, hW₄, hp₄⟩ := ih hc₃ h₄
          refine ⟨_ ++ sched₄, s₄, Net.run_trans hrun hrun₄, hc₄,
            fun w hw => by rw [hW₄ w hw, hW w hw], fun w hw => ?_⟩
          rw [hp₄ w hw]
          simp [hret]
        · refine ⟨_, s₃, hrun, hc₃, hW, fun w hw => ?_⟩
          rw [hp₃ w hw, hL]
          simp [syncCont, k', hret]

/-- `distributed_quickselect(arr, local_length, …, targets, …, num)` on every worker `w < W`:
the helper on the whole local array `[0, local_length w)`, with no message in flight. -/
def quickselectNet (W : ℕ) (targets : ℕ → ℕ) (fuel num : ℕ) (localLength : ℕ → ℕ)
    (sts : ℕ → QsState) : Net QsMsg (QsState × ℤ) where
  procs w := if w < W then quickselectHelper W w targets fuel 0 num 0 (localLength w) (sts w)
    else .stop
  chans _ := []

/-- Every worker `w < W` has returned its part of `res`, and no message is in flight. -/
def syncFinal (W : ℕ) (res : (ℕ → QsState) × ℤ) : Net QsMsg (QsState × ℤ) where
  procs w := if w < W then .done (res.1 w, res.2) else .stop
  chans _ := []

theorem syncFinal_terminal (W : ℕ) (res : (ℕ → QsState) × ℤ) : (syncFinal W res).Terminal := by
  intro w
  by_cases hw : w < W <;> simp [Net.step, syncFinal, hw]

section Top

variable {targets : ℕ → ℕ} {fuel num : ℕ} {localLength : ℕ → ℕ} {sts : ℕ → QsState}

/-- Where the synchronous model returns `res`, every run of the network can be completed to
the state where each worker has returned its part of `res`, in a number of steps that does
not depend on the schedule. -/
theorem quickselectNet_complete {res : (ℕ → QsState) × ℤ}
    (h : syncHelper W targets fuel 0 num (fun _ => 0) localLength sts = some res) :
    ∃ n, ∀ ws s', (quickselectNet W targets fuel num localLength sts).run ws = some s' →
      ∃ ws', s'.run ws' = some (syncFinal W res) ∧ ws.length + ws'.length = n := by
  obtain ⟨sched, F, hrun, hc, hW, hp⟩ :=
    @run_quickselectHelper _ W targets fuel 0 num (fun _ => 0) localLength sts
      (fun _ => Proc.done) (quickselectNet W targets fuel num localLength sts) (fun _ => rfl)
      (fun w hw => by simp [quickselectNet, hw])
  have hF : F = syncFinal W res := by
    obtain ⟨procs, chans⟩ := F
    congr
    · funext w
      by_cases hw : w < W
      · refine (hp w hw).trans ?_
        simp [h, syncCont, syncFinal, hw]
      · refine (hW w (not_lt.1 hw)).trans ?_
        simp [quickselectNet, syncFinal, hw]
    · exact funext hc
  subst hF
  exact ⟨sched.length, fun ws s' h' => Net.run_complete (syncFinal_terminal W res) hrun h'⟩

/-- `distributed_quickselect` on `W` workers, whatever their records and whatever the
schedule, refines the synchronous-round model: every run can be completed, in a number of
steps fixed in advance, to the state where every worker has returned the model's state and
`ret` and no message is left on any channel, and a run that can go no further is in that
state. The fuel only has to exceed the total number of records. -/
theorem quickselect_refines_sync (targets : ℕ → ℕ) (fuel num : ℕ) (localLength : ℕ → ℕ)
    (sts : ℕ → QsState) (hfuel : ∑ w ∈ Finset.range W, localLength w < fuel) :
    ∃ res n, syncHelper W targets fuel 0 num (fun _ => 0) localLength sts = some res ∧
      ∀ ws s', (quickselectNet W targets fuel num localLength sts).run ws = some s' →
        (∃ ws', s'.run ws' = some (syncFinal W res) ∧ ws.length + ws'.length = n) ∧
        (s'.Terminal → s' = syncFinal W res) := by
  have hw : windowSum W (fun _ => 0) localLength < fuel := by simpa [windowSum] using hfuel
  obtain ⟨res, hres⟩ := Option.isSome_iff_exists.1 (syncHelper_isSome fuel 0 num _ _ sts hw)
  obtain ⟨n, hn⟩ := quickselectNet_complete hres
  obtain ⟨sched, hsched, -⟩ := hn [] _ rfl
  exact ⟨res, n, hres, fun ws s' h =>
    ⟨hn ws s' h, Net.eq_of_terminal (syncFinal_terminal W res) hsched h⟩⟩

theorem quickselect_refines_sync_two_workers :
    ∑ _w ∈ Finset.range 2, 1 < 3 ∧
      ∃ res n, syncHelper 2 (fun i => srcLocalStart 2 2 (i + 1)) 3 0 1 (fun _ => 0) (fun _ => 1)
          (fun w => ⟨fun _ => ⟨w, 0, 0⟩, fun _ => ⟨0, 0⟩, fun _ => 0⟩) = some res ∧
        ∀ ws s', (quickselectNet 2 (fun i => srcLocalStart 2 2 (i + 1)) 3 1 (fun _ => 1)
          (fun w => ⟨fun _ => ⟨w, 0, 0⟩, fun _ => ⟨0, 0⟩, fun _ => 0⟩)).run ws = some s' →
          (∃ ws', s'.run ws' = some (syncFinal 2 res) ∧ ws.length + ws'.length = n) ∧
          (s'.Terminal → s' = syncFinal 2 res) :=
  ⟨by decide, quickselect_refines_sync _ 3 1 (fun _ => 1) _ (by decide)⟩

end Top

/-! ### Repeated targets

With fewer records than workers the targets `total_length * (i + 1) / world_size` repeat,
and the dispatch settles only one target per pivot. -/

/-- One record on worker 0 of three, as the host lays it out: the targets are `[0, 0]`. The
first round's pivot has global rank 0 and settles the first target; the call for the second
finds every window empty. -/
theorem syncHelper_one_record (sts : ℕ → QsState) (fuel : ℕ) :
    ∃ sts', syncHelper 3 (fun i => srcLocalStart 1 3 (i + 1)) (fuel + 2) 0 2 (fun _ => 0)
      (localLength 1 3) sts = some (sts', -1) := by
  have hm : electRound 3 (fun _ => 0) (localLength 1 3) = some 0 := by decide
  have hp0 : (roundPart sts (fun _ => 0) (localLength 1 3) 0 0).2 = (1, 0) := by
    simp [roundPart, partitionWindow, partitionLoop, localLength]
  have hp : ∀ w, 0 < w → w < 3 → (roundPart sts (fun _ => 0) (localLength 1 3) 0 w).2 = (0, 0) := by
    intro w h1 h2
    obtain rfl | rfl : w = 1 ∨ w = 2 := by omega
    all_goals simp [roundPart, partitionWindow, partitionLoop, localLength]
  have hs : roundSplit 3 (fun i => srcLocalStart 1 3 (i + 1)) 0 2 sts (fun _ => 0)
      (localLength 1 3) 0 = (0, true) := by
    simp [roundSplit, roundCurPivot, Proc.foldRecv, hp0, hp, List.range_succ, targetSplit,
      bsearchGe, srcLocalStart]
    decide
  have hm' : electRound 3 (fun w => (roundPart sts (fun _ => 0) (localLength 1 3) 0 w).2.1)
      (localLength 1 3) = none := by
    simp [electRound, List.range_succ, electMaster, hp0, hp 1 (by decide) (by decide),
      hp 2 (by decide) (by decide), localLength]
  rw [syncHelper_master (by decide) hm, hs]
  simp [syncHelper_num_zero, syncHelper_no_master one_ne_zero hm']

/-- `distributed_quickselect` with one record over three workers: in every schedule every
worker returns -1 from "All ranks reported empty slice". -/
theorem quickselect_one_record_fails (sts : ℕ → QsState) (fuel : ℕ) (hfuel : 2 ≤ fuel) :
    ∃ sts' n, ∀ ws s', (quickselectNet 3 (fun i => srcLocalStart 1 3 (i + 1)) fuel 2
        (localLength 1 3) sts).run ws = some s' →
      ∃ ws', s'.run ws' = some (syncFinal 3 (sts', -1)) ∧ ws.length + ws'.length = n := by
  obtain ⟨f, rfl⟩ := Nat.exists_eq_add_of_le' hfuel
  obtain ⟨sts', h⟩ := syncHelper_one_record sts f
  exact ⟨sts', quickselectNet_complete h⟩

theorem quickselect_one_record_fails_at_two :
    2 ≤ 2 ∧ ∃ sts' n, ∀ ws s', (quickselectNet 3 (fun i => srcLocalStart 1 3 (i + 1)) 2 2
        (localLength 1 3) (fun _ => ⟨fun _ => ⟨7, 0, 0⟩, fun _ => ⟨0, 0⟩, fun _ => 0⟩)).run ws =
          some s' →
      ∃ ws', s'.run ws' = some (syncFinal 3 (sts', -1)) ∧ ws.length + ws'.length = n :=
  ⟨le_rfl, quickselect_one_record_fails _ 2 le_rfl⟩

end DistributedSgxSort
