import Mathlib.Data.Finset.Card
import Mathlib.Data.List.Perm.Basic

/-! The barrier `thread_wait_for_all` of `threading.c`.

A call takes `all_threads_lock` and increments the static `num_threads_waiting`. The call
that brings it to `total_num_threads` broadcasts on `all_threads_finished`, resets the
count and returns; every other call waits on the condvar, which releases the lock, and
returns once a broadcast has woken it and it holds the lock again. The sections under the
lock are atomic, so an execution is a sequence of two kinds of step, in any interleaving
of the threads: a call's locked section (`arrive`) and a woken thread's return (`wake`). A
thread is `running` outside the barrier, `waiting` in `condvar_wait` with the lock released,
and `woken` once a broadcast has woken it, until it holds the lock again.

The invariant below holds over every interleaving: a thread returns from its `k`-th call
only once every thread has made its `k`-th call, and not every thread is blocked at once.
Runs of calls that block, and of woken threads that return, are given step by step. -/
namespace DistributedSgxSort

inductive BarrierPc
  | running
  | waiting
  | woken
  deriving DecidableEq, Repr

/-- `num_threads_waiting` and where each thread is, with two counters the code does not
keep: how many calls each thread has made, and how many of them have returned. -/
structure BarrierState where
  numThreadsWaiting : ℕ
  pc : ℕ → BarrierPc
  calls : ℕ → ℕ
  returns : ℕ → ℕ

/-- The zero-initialised statics, every thread outside the barrier. -/
def barrierInit : BarrierState := ⟨0, fun _ => .running, fun _ => 0, fun _ => 0⟩

/-- Modelled from the spec: `condvar_broadcast` wakes every thread waiting on the condvar;
each leaves `condvar_wait` once it holds the lock again. -/
def condvarBroadcast (pc : ℕ → BarrierPc) (t : ℕ) : BarrierPc :=
  if pc t = .waiting then .woken else pc t

inductive BarrierOp
  | arrive (t : ℕ)
  | wake (t : ℕ)
  deriving DecidableEq, Repr

/-- One step, `none` where thread `t` is not at that point; the threads are those below
`total_num_threads`. -/
def barrierStep (total : ℕ) (s : BarrierState) : BarrierOp → Option BarrierState
  | .arrive t =>
    if t < total ∧ s.pc t = .running then
      let calls := Function.update s.calls t (s.calls t + 1)
      if total ≤ s.numThreadsWaiting + 1 then
        some ⟨0, condvarBroadcast s.pc, calls, Function.update s.returns t (s.returns t + 1)⟩
      else
        some ⟨s.numThreadsWaiting + 1, Function.update s.pc t .waiting, calls, s.returns⟩
    else none
  | .wake t =>
    if t < total ∧ s.pc t = .woken then
      some ⟨s.numThreadsWaiting, Function.update s.pc t .running, s.calls,
        Function.update s.returns t (s.returns t + 1)⟩
    else none

/-- An execution: the steps one after the other, `none` if one is not enabled. -/
def barrierRun (total : ℕ) (s : BarrierState) : List BarrierOp → Option BarrierState
  | [] => some s
  | op :: ops => (barrierStep total s op).bind fun s' => barrierRun total s' ops

@[simp] theorem barrierRun_nil (total : ℕ) (s : BarrierState) : barrierRun total s [] = some s :=
  rfl

theorem barrierStep_arrive_wait {total : ℕ} {s : BarrierState} {t : ℕ} (ht : t < total)
    (hpt : s.pc t = .running) (hn : s.numThreadsWaiting + 1 < total) :
    barrierStep total s (.arrive t) = some ⟨s.numThreadsWaiting + 1,
      Function.update s.pc t .waiting, Function.update s.calls t (s.calls t + 1), s.returns⟩ := by
  simp [barrierStep, ht, hpt, Nat.not_le.2 hn]

theorem barrierStep_arrive_broadcast {total : ℕ} {s : BarrierState} {t : ℕ} (ht : t < total)
    (hpt : s.pc t = .running) (hn : total ≤ s.numThreadsWaiting + 1) :
    barrierStep total s (.arrive t) = some ⟨0, condvarBroadcast s.pc,
      Function.update s.calls t (s.calls t + 1), Function.update s.returns t (s.returns t + 1)⟩ := by
  simp [barrierStep, ht, hpt, hn]

theorem barrierStep_wake {total : ℕ} {s : BarrierState} {t : ℕ} (ht : t < total)
    (hpt : s.pc t = .woken) :
    barrierStep total s (.wake t) = some ⟨s.numThreadsWaiting, Function.update s.pc t .running,
      s.calls, Function.update s.returns t (s.returns t + 1)⟩ := by
  simp [barrierStep, ht, hpt]

theorem barrierStep_returns_le {total : ℕ} {s s' : BarrierState} {op : BarrierOp}
    (h : barrierStep total s op = some s') (u : ℕ) : s.returns u ≤ s'.returns u := by
  have hup : ∀ t, s.returns u ≤ Function.update s.returns t (s.returns t + 1) u := fun t => by
    by_cases e : u = t
    · subst e; simp
    · simp [Function.update_noteq e]
  cases op <;> simp only [barrierStep] at h <;> split_ifs at h <;> cases h
  exacts [hup _, le_rfl, hup _]

theorem barrierRun_returns_le {total : ℕ} :
    ∀ {ops : List BarrierOp} {s s' : BarrierState}, barrierRun total s ops = some s' →
      ∀ u, s.returns u ≤ s'.returns u
  | [], _, _, h, _ => Option.some.inj h ▸ le_rfl
  | _ :: _, _, _, h, u => by
    obtain ⟨_, h₁, h₂⟩ := Option.bind_eq_some.1 h
    exact (barrierStep_returns_le h₁ u).trans (barrierRun_returns_le h₂ u)

/-! ### The invariant -/

/-- The waiting threads. -/
def waitingSet (total : ℕ) (pc : ℕ → BarrierPc) : Finset ℕ :=
  (Finset.range total).filter fun t => pc t = .waiting

/-- The reachable states, `g` being the number of broadcasts so far: every thread has made
`g` calls, or `g + 1` while it waits; each call has returned but the one a thread waits or
is woken in; `num_threads_waiting` counts the waiting threads and stays below the total. -/
structure BarrierInv (total g : ℕ) (s : BarrierState) : Prop where
  calls_eq : ∀ t < total, s.calls t = if s.pc t = .waiting then g + 1 else g
  returns_eq : ∀ t < total, s.returns t + (if s.pc t = .running then 0 else 1) = s.calls t
  count_eq : s.numThreadsWaiting = (waitingSet total s.pc).card
  count_lt : s.numThreadsWaiting < total

variable {total g : ℕ} {s s' : BarrierState} {t : ℕ} {pc : ℕ → BarrierPc}

theorem barrierInv_init (h : 0 < total) : BarrierInv total 0 barrierInit :=
  ⟨fun _ _ => rfl, fun _ _ => rfl, by simp [waitingSet, barrierInit], h⟩

theorem waitingSet_update_waiting (ht : t < total) (hpt : pc t ≠ .waiting) :
    waitingSet total (Function.update pc t .waiting) = insert t (waitingSet total pc) := by
  ext u
  by_cases hu : u = t
  · subst hu
    simp [waitingSet, ht]
  · simp [waitingSet, Function.update_noteq hu, hu]

theorem waitingSet_update_of_ne {b : BarrierPc} (hb : b ≠ .waiting)
    (hpt : pc t ≠ .waiting) : waitingSet total (Function.update pc t b) = waitingSet total pc :=
  Finset.filter_congr fun u _ => by
    by_cases hu : u = t
    · subst hu
      simp [hb, hpt]
    · rw [Function.update_noteq hu]

theorem waitingSet_condvarBroadcast (pc : ℕ → BarrierPc) :
    waitingSet total (condvarBroadcast pc) = ∅ :=
  Finset.filter_false_of_mem fun u _ => by unfold condvarBroadcast; split_ifs <;> simp_all

/-- When the count is one short of the total, every thread but the caller waits. -/
theorem BarrierInv.waiting_of_full (hs : BarrierInv total g s) (ht : t < total)
    (hpt : s.pc t ≠ .waiting) (hn : total ≤ s.numThreadsWaiting + 1) :
    ∀ u < total, u ≠ t → s.pc u = .waiting := by
  have hsub : waitingSet total s.pc ⊆ (Finset.range total).erase t := fun u hu => by
    simp only [waitingSet, Finset.mem_filter, Finset.mem_range] at hu
    exact Finset.mem_erase.2 ⟨fun e => hpt (e ▸ hu.2), Finset.mem_range.2 hu.1⟩
  have heq := Finset.eq_of_subset_of_card_le hsub (by
    rw [Finset.card_erase_of_mem (Finset.mem_range.2 ht), Finset.card_range, ← hs.count_eq]
    omega)
  intro u hu hut
  have hmem : u ∈ (Finset.range total).erase t := Finset.mem_erase.2 ⟨hut, Finset.mem_range.2 hu⟩
  rw [← heq] at hmem
  exact (Finset.mem_filter.1 hmem).2

/-- A call that does not complete the count waits, in the same generation. -/
theorem BarrierInv.arrive_wait (hs : BarrierInv total g s) (ht : t < total)
    (hpt : s.pc t = .running) (hn : s.numThreadsWaiting + 1 < total) :
    ∃ s', barrierStep total s (.arrive t) = some s' ∧ BarrierInv total g s' ∧
      s'.numThreadsWaiting = s.numThreadsWaiting + 1 ∧
      s'.pc = Function.update s.pc t .waiting := by
  refine ⟨_, barrierStep_arrive_wait ht hpt hn, ⟨fun u hu => ?_, fun u hu => ?_, ?_, hn⟩, rfl, rfl⟩
  · by_cases hut : u = t
    · subst hut
      simp [hs.calls_eq u hu, hpt]
    · simpa [Function.update_noteq hut] using hs.calls_eq u hu
  · by_cases hut : u = t
    · subst hut
      simpa [hpt] using hs.returns_eq u hu
    · simpa [Function.update_noteq hut] using hs.returns_eq u hu
  · rw [waitingSet_update_waiting ht (by simp [hpt]),
      Finset.card_insert_of_not_mem (by simp [waitingSet, hpt]), hs.count_eq]

/-- The call that completes the count wakes every other thread and starts a generation. -/
theorem BarrierInv.arrive_broadcast (hs : BarrierInv total g s) (ht : t < total)
    (hpt : s.pc t = .running) (hn : total ≤ s.numThreadsWaiting + 1) :
    ∃ s', barrierStep total s (.arrive t) = some s' ∧ BarrierInv total (g + 1) s' ∧
      s'.numThreadsWaiting = 0 ∧ s'.pc = condvarBroadcast s.pc := by
  have hall := hs.waiting_of_full ht (by simp [hpt]) hn
  refine ⟨_, barrierStep_arrive_broadcast ht hpt hn,
    ⟨fun u hu => ?_, fun u hu => ?_, by simp [waitingSet_condvarBroadcast], Nat.zero_lt_of_lt ht⟩,
    rfl, rfl⟩
  · by_cases hut : u = t
    · subst hut
      simp [condvarBroadcast, hs.calls_eq u hu, hpt]
    · simpa [Function.update_noteq hut, condvarBroadcast, hall u hu hut] using hs.calls_eq u hu
  · by_cases hut : u = t
    · subst hut
      simpa [condvarBroadcast, hpt] using hs.returns_eq u hu
    · simpa [Function.update_noteq hut, condvarBroadcast, hall u hu hut] using hs.returns_eq u hu

/-- A woken thread returns from its call. -/
theorem BarrierInv.wake (hs : BarrierInv total g s) (ht : t < total) (hpt : s.pc t = .woken) :
    ∃ s', barrierStep total s (.wake t) = some s' ∧ BarrierInv total g s' ∧
      s'.numThreadsWaiting = s.numThreadsWaiting ∧ s'.pc = Function.update s.pc t .running := by
  refine ⟨_, barrierStep_wake ht hpt, ⟨fun u hu => ?_, fun u hu => ?_, ?_, hs.count_lt⟩, rfl, rfl⟩
  · by_cases hut : u = t
    · subst hut
      simpa [hpt] using hs.calls_eq u hu
    · simpa [Function.update_noteq hut] using hs.calls_eq u hu
  · by_cases hut : u = t
    · subst hut
      simpa [hpt, Nat.add_comm] using hs.returns_eq u hu
    · simpa [Function.update_noteq hut] using hs.returns_eq u hu
  · rw [waitingSet_update_of_ne (by simp) (by simp [hpt])]
    exact hs.count_eq

/-- Every step keeps the invariant, in the same generation or the next. -/
theorem BarrierInv.step (hs : BarrierInv total g s) {op : BarrierOp}
    (h : barrierStep total s op = some s') : BarrierInv total g s' ∨ BarrierInv total (g + 1) s' := by
  cases op with
  | arrive t =>
    by_cases hg : t < total ∧ s.pc t = .running
    · by_cases hn : total ≤ s.numThreadsWaiting + 1
      · obtain ⟨_, h', hs', -⟩ := hs.arrive_broadcast hg.1 hg.2 hn
        exact .inr (Option.some.inj (h'.symm.trans h) ▸ hs')
      · obtain ⟨_, h', hs', -⟩ := hs.arrive_wait hg.1 hg.2 (by omega)
        exact .inl (Option.some.inj (h'.symm.trans h) ▸ hs')
    · simp [barrierStep, hg] at h
  | wake t =>
    by_cases hg : t < total ∧ s.pc t = .woken
    · obtain ⟨_, h', hs', -⟩ := hs.wake hg.1 hg.2
      exact .inl (Option.some.inj (h'.symm.trans h) ▸ hs')
    · simp [barrierStep, hg] at h

/-- Every run keeps the invariant, for some later generation. -/
theorem BarrierInv.run (hs : BarrierInv total g s) {ops : List BarrierOp}
    (h : barrierRun total s ops = some s') : ∃ g', BarrierInv total g' s' := by
  induction ops generalizing g s with
  | nil => exact ⟨g, Option.some.inj h ▸ hs⟩
  | cons op ops ih =>
    obtain ⟨s₁, h₁, h₂⟩ := Option.bind_eq_some.1 h
    rcases hs.step h₁ with hs₁ | hs₁
    · exact ih hs₁ h₂
    · exact ih hs₁ h₂

/-! ### What the barrier guarantees -/

/-- A call returns only in its own generation or an earlier one, and every thread has made
the calls of the current generation. -/
theorem BarrierInv.returns_le_calls (hs : BarrierInv total g s) {u : ℕ} (ht : t < total)
    (hu : u < total) : s.returns t ≤ s.calls u := by
  have hr := hs.returns_eq t ht
  have hct := hs.calls_eq t ht
  have hcu := hs.calls_eq u hu
  calc s.returns t ≤ g := by
        cases hp : s.pc t <;> simp only [hp, reduceCtorEq, ite_true, ite_false] at hr hct <;> omega
    _ ≤ s.calls u := by split_ifs at hcu <;> omega

/-- Not every thread is blocked in `condvar_wait`. -/
theorem BarrierInv.exists_not_waiting (hs : BarrierInv total g s) : ∃ t < total, s.pc t ≠ .waiting := by
  by_contra hall
  push_neg at hall
  have hfull : waitingSet total s.pc = Finset.range total :=
    Finset.filter_true_of_mem fun t ht => hall t (Finset.mem_range.1 ht)
  have := hs.count_lt
  rw [hs.count_eq, hfull, Finset.card_range] at this
  exact lt_irrefl _ this

/-! ### Every thread gets through -/

/-- Calls that do not complete the count, one after the other, each wait. -/
theorem BarrierInv.run_arrive (hs : BarrierInv total g s) :
    ∀ {l : List ℕ}, l.Nodup → (∀ u ∈ l, u < total ∧ s.pc u = .running) →
      s.numThreadsWaiting + l.length < total →
      ∃ s', barrierRun total s (l.map .arrive) = some s' ∧ BarrierInv total g s' ∧
        s'.numThreadsWaiting = s.numThreadsWaiting + l.length ∧
        (∀ u, s'.pc u = if u ∈ l then .waiting else s.pc u) ∧ s'.returns = s.returns := by
  intro l
  induction l generalizing s with
  | nil => exact fun _ _ _ => ⟨s, rfl, hs, rfl, fun _ => rfl, rfl⟩
  | cons a l ih =>
    intro hnd hl hn
    rw [List.nodup_cons] at hnd
    obtain ⟨ha, hpa⟩ := hl a (List.mem_cons_self _ _)
    obtain ⟨s₁, h₁, hs₁, hn₁, hp₁⟩ := hs.arrive_wait ha hpa (by simp at hn; omega)
    have hl₁ : ∀ u ∈ l, u < total ∧ s₁.pc u = .running := fun u hu => by
      rw [hp₁, Function.update_noteq (fun e : u = a => hnd.1 (e ▸ hu))]
      exact hl u (List.mem_cons_of_mem _ hu)
    obtain ⟨s₂, h₂, hs₂, hn₂, hp₂, hr₂⟩ := ih hs₁ hnd.2 hl₁ (by simp at hn; omega)
    have hr₁ : s₁.returns = s.returns := by
      rw [barrierStep_arrive_wait ha hpa (by simp at hn; omega)] at h₁
      cases h₁; rfl
    refine ⟨s₂, by simp [barrierRun, h₁, h₂], hs₂, by simp [hn₂, hn₁]; omega, fun u => ?_,
      hr₂.trans hr₁⟩
    by_cases hua : u = a
    · subst hua
      simp [hp₂, hp₁, hnd.1]
    · simp [hp₂, hp₁, Function.update_noteq hua, hua]

/-- Woken threads, one after the other, each return. -/
theorem BarrierInv.run_wake (hs : BarrierInv total g s) :
    ∀ {l : List ℕ}, l.Nodup → (∀ u ∈ l, u < total ∧ s.pc u = .woken) →
      ∃ s', barrierRun total s (l.map .wake) = some s' ∧ BarrierInv total g s' ∧
        (∀ u, s'.pc u = if u ∈ l then .running else s.pc u) ∧
        ∀ u, s'.returns u = if u ∈ l then s.returns u + 1 else s.returns u := by
  intro l
  induction l generalizing s with
  | nil => exact fun _ _ => ⟨s, rfl, hs, fun _ => rfl, fun _ => rfl⟩
  | cons a l ih =>
    intro hnd hl
    rw [List.nodup_cons] at hnd
    obtain ⟨ha, hpa⟩ := hl a (List.mem_cons_self _ _)
    obtain ⟨s₁, h₁, hs₁, -, hp₁⟩ := hs.wake ha hpa
    have hl₁ : ∀ u ∈ l, u < total ∧ s₁.pc u = .woken := fun u hu => by
      rw [hp₁, Function.update_noteq (fun e : u = a => hnd.1 (e ▸ hu))]
      exact hl u (List.mem_cons_of_mem _ hu)
    obtain ⟨s₂, h₂, hs₂, hp₂, hr₂⟩ := ih hs₁ hnd.2 hl₁
    rw [barrierStep_wake ha hpa] at h₁
    cases h₁
    refine ⟨s₂, by simp [barrierRun, barrierStep_wake ha hpa, h₂], hs₂, fun u => ?_, fun u => ?_⟩ <;>
      by_cases hua : u = a
    · subst hua
      simp [hp₂, hp₁, hnd.1]
    · simp [hp₂, hp₁, Function.update_noteq hua, hua]
    · subst hua
      simp [hr₂, hnd.1]
    · simp [hr₂, Function.update_noteq hua, hua]

end DistributedSgxSort
