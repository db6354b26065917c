import DistributedSgxSort.Barrier
import DistributedSgxSort.Threading

/-! The worker loop `thread_start_work` of `threading.c`, run by the `total_num_threads`
threads at once: the first `thread_wait_for_all`, then `thread_work_pop` until it returns
`NULL`, running `work->func` and `sema_up(&work->done)` for each item it returns, then the
second `thread_wait_for_all`. Its atomic steps are those of the barrier and of the work
queue, modelled in `Barrier` and `Threading`; the pushes and `thread_release_all` /
`thread_unrelease_all` come from the thread that drives the pipeline's phases, and may fall
between any two of them.

A thread is at `start` or `finish` when it is at the first or the second call of
`thread_wait_for_all`, and `exited` once `thread_start_work` has returned. In
`thread_work_pop` it is at `pop` before the volatile load of `work_head` in
`while (!work_head)`, at `spin` once that load has read `NULL` and before the load of
`work_done`, and at `lock` once it has read an item and before it takes the lock. The two
loads are separate steps, so a push and `thread_release_all` may fall between them.

The atomic steps are thread `t`'s sections of `thread_wait_for_all` (`arrive`, `wake`), its
loads of `work_head` (`check`) and of `work_done` (`checkDone`), the locked section of
`thread_work_pop` (`locked`), and the return of a `work->func` with its
`sema_up(&work->done)` (`up`); and the driving thread's `thread_work_push`,
`thread_release_all` and `thread_unrelease_all`.

Over every interleaving: no thread takes work before every thread has called the first
barrier, and none returns while another is still in its work loop; and, when the driving
thread pushes an item only once it is neither queued nor being run, every push of an item
is queued, being run by one thread, or done, with no item queued and run at once. -/
namespace DistributedSgxSort

inductive WorkerPc
  | start
  | pop
  | lock
  | spin
  | run (work : ℕ)
  | finish
  | exited
  deriving DecidableEq, Repr

namespace WorkerPc

/-- Whether the thread is at a call of `thread_wait_for_all`. -/
def atBarrier : WorkerPc → Bool
  | start | finish => true
  | _ => false

/-- Where the thread goes when its call of `thread_wait_for_all` returns. -/
def next : WorkerPc → WorkerPc
  | start => pop
  | finish => exited
  | pc => pc

/-- How many of the thread's calls of `thread_wait_for_all` have returned. -/
def barrierReturns : WorkerPc → ℕ
  | start => 0
  | exited => 2
  | _ => 1

@[simp] theorem ne_run_of_atBarrier {p : WorkerPc} (h : p.atBarrier) (w : ℕ) : p ≠ run w := by
  rintro rfl
  simp [atBarrier] at h

theorem next_ne_run {p : WorkerPc} (h : p.atBarrier) (w : ℕ) : p.next ≠ run w := by
  cases p <;> simp_all [atBarrier, next]

@[simp] theorem barrierReturns_next {p : WorkerPc} (h : p.atBarrier) :
    p.next.barrierReturns = p.barrierReturns + 1 := by
  cases p <;> simp_all [atBarrier, next, barrierReturns]

@[simp] theorem atBarrier_next {p : WorkerPc} (h : p.atBarrier) : p.next.atBarrier = false := by
  cases p <;> simp_all [atBarrier, next]

end WorkerPc

/-- The work queue, `work_done`, the barrier and where each thread is; with the queued items
in order and the pushes of each item, which the code does not keep, and the `sema_up` calls
made on each item's `done`. -/
structure PoolState where
  queue : QueueState
  workDone : Bool
  barrier : BarrierState
  pc : ℕ → WorkerPc
  items : List ℕ
  pushes : ℕ → ℕ
  ups : ℕ → ℕ

inductive PoolOp
  | arrive (t : ℕ)
  | wake (t : ℕ)
  | check (t : ℕ)
  | checkDone (t : ℕ)
  | locked (t : ℕ)
  | up (t : ℕ)
  | push (work : ℕ)
  | release
  | unrelease
  deriving DecidableEq, Repr

/-- One step, `none` where thread `t` is not at that point; the threads are those below
`total_num_threads`. -/
def poolStep (total : ℕ) (s : PoolState) : PoolOp → Option PoolState
  | .arrive t =>
    if (s.pc t).atBarrier then
      (barrierStep total s.barrier (.arrive t)).map fun b =>
        { s with
          barrier := b
          pc := if b.pc t = .running then Function.update s.pc t (s.pc t).next else s.pc }
    else none
  | .wake t =>
    if (s.pc t).atBarrier then
      (barrierStep total s.barrier (.wake t)).map fun b =>
        { s with barrier := b, pc := Function.update s.pc t (s.pc t).next }
    else none
  | .check t =>
    if t < total ∧ s.pc t = .pop then
      some { s with pc := Function.update s.pc t (if s.queue.workHead = none then .spin else .lock) }
    else none
  | .checkDone t =>
    if t < total ∧ s.pc t = .spin then
      some { s with pc := Function.update s.pc t (if s.workDone then .finish else .pop) }
    else none
  | .locked t =>
    if t < total ∧ s.pc t = .lock then
      let r := threadWorkStep s.workDone s.queue .locked
      some
        { s with
          queue := r.1
          items := s.items.tail
          pc := Function.update s.pc t (match r.2 with
            | some (some w) => .run w
            | _ => .pop) }
    else none
  | .up t =>
    match s.pc t with
    | .run w =>
      if t < total then
        some
          { s with
            pc := Function.update s.pc t .pop
            ups := Function.update s.ups w (s.ups w + 1) }
      else none
    | _ => none
  | .push w =>
    some
      { s with
        queue := (threadWorkStep s.workDone s.queue (.push w)).1
        items := s.items ++ [w]
        pushes := Function.update s.pushes w (s.pushes w + 1) }
  | .release => some { s with workDone := true }
  | .unrelease => some { s with workDone := false }

/-- An execution: the steps one after the other, `none` if one is not enabled. -/
def poolRun (total : ℕ) (s : PoolState) : List PoolOp → Option PoolState
  | [] => some s
  | op :: ops => (poolStep total s op).bind fun s' => poolRun total s' ops

/-- The zero-initialised statics and every thread at the start of `thread_start_work`. -/
def poolInit (next : ℕ → Option ℕ) : PoolState :=
  ⟨⟨none, none, next⟩, false, barrierInit, fun _ => .start, [], fun _ => 0, fun _ => 0⟩

@[simp] theorem poolRun_nil (total : ℕ) (s : PoolState) : poolRun total s [] = some s := rfl

theorem poolRun_cons (total : ℕ) (s : PoolState) (op : PoolOp) (ops : List PoolOp) :
    poolRun total s (op :: ops) = (poolStep total s op).bind fun s' => poolRun total s' ops :=
  rfl

theorem poolRun_append (total : ℕ) (s : PoolState) (ops ops' : List PoolOp) :
    poolRun total s (ops ++ ops') = (poolRun total s ops).bind fun s' => poolRun total s' ops' := by
  induction ops generalizing s with
  | nil => rfl
  | cons op ops ih =>
    simp only [List.cons_append, poolRun]
    cases poolStep total s op <;> simp [ih]

/-! ### The barrier steps -/

section Barrier

variable {total g : ℕ} {s : PoolState} {t : ℕ}

theorem poolStep_arrive_broadcast (hat : (s.pc t).atBarrier) (ht : t < total)
    (hpt : s.barrier.pc t = .running) (hn : total ≤ s.barrier.numThreadsWaiting + 1) :
    poolStep total s (.arrive t) = some
      { s with
        barrier := ⟨0, condvarBroadcast s.barrier.pc,
          Function.update s.barrier.calls t (s.barrier.calls t + 1),
          Function.update s.barrier.returns t (s.barrier.returns t + 1)⟩
        pc := Function.update s.pc t (s.pc t).next } := by
  simp [poolStep, hat, barrierStep_arrive_broadcast ht hpt hn, condvarBroadcast, hpt]

/-- What an `arrive` can do: the thread is at a barrier, and its call either waits or
returns at once. -/
theorem poolStep_arrive_eq {s' : PoolState} (h : poolStep total s (.arrive t) = some s') :
    (s.pc t).atBarrier ∧ ∃ b, barrierStep total s.barrier (.arrive t) = some b ∧
      s' = { s with
        barrier := b
        pc := if b.pc t = .running then Function.update s.pc t (s.pc t).next else s.pc } := by
  simp only [poolStep] at h
  split_ifs at h with hat
  obtain ⟨b, hb, rfl⟩ := Option.map_eq_some'.1 h
  exact ⟨hat, b, hb, rfl⟩

theorem poolStep_wake_eq {s' : PoolState} (h : poolStep total s (.wake t) = some s') :
    (s.pc t).atBarrier ∧ ∃ b, barrierStep total s.barrier (.wake t) = some b ∧
      s' = { s with barrier := b, pc := Function.update s.pc t (s.pc t).next } := by
  simp only [poolStep] at h
  split_ifs at h with hat
  obtain ⟨b, hb, rfl⟩ := Option.map_eq_some'.1 h
  exact ⟨hat, b, hb, rfl⟩

end Barrier

/-! ### The threads and the barrier -/

/-- The threads' places agree with the barrier: each has returned from as many calls of
`thread_wait_for_all` as its place says, and one outside a call is not blocked in it. -/
structure PhaseInv (total g : ℕ) (s : PoolState) : Prop where
  barrier : BarrierInv total g s.barrier
  returns_eq : ∀ t < total, s.barrier.returns t = (s.pc t).barrierReturns
  running : ∀ t < total, (s.pc t).atBarrier = false → s.barrier.pc t = .running

section Phase

variable {total g : ℕ} {s s' : PoolState} {t : ℕ}

theorem phaseInv_init (h : 0 < total) (next : ℕ → Option ℕ) : PhaseInv total 0 (poolInit next) :=
  ⟨barrierInv_init h, fun _ _ => rfl, fun _ _ _ => rfl⟩

/-- A step that leaves the barrier alone and moves threads only between places with the same
returned calls, never from a barrier call to outside one, keeps the invariant. -/
theorem PhaseInv.of_pc (hs : PhaseInv total g s) (hb : s'.barrier = s.barrier)
    (hpc : ∀ u < total, (s'.pc u).barrierReturns = (s.pc u).barrierReturns ∧
      ((s'.pc u).atBarrier = false → (s.pc u).atBarrier = false)) : PhaseInv total g s' :=
  ⟨hb ▸ hs.barrier, fun u hu => by rw [hb, hs.returns_eq u hu, (hpc u hu).1],
    fun u hu hau => hb ▸ hs.running u hu ((hpc u hu).2 hau)⟩

/-- Moving thread `t` alone, within the same returned calls and not out of a barrier call,
keeps the invariant. -/
theorem PhaseInv.update_pc (hs : PhaseInv total g s) (hb : s'.barrier = s.barrier) {p : WorkerPc}
    (hpc : s'.pc = Function.update s.pc t p) (hr : p.barrierReturns = (s.pc t).barrierReturns)
    (ha : p.atBarrier = false → (s.pc t).atBarrier = false) : PhaseInv total g s' :=
  hs.of_pc hb fun u _ => by
    by_cases hut : u = t
    · subst hut
      simpa [hpc] using ⟨hr, ha⟩
    · simp [hpc, Function.update_noteq hut]

theorem PhaseInv.arrive_wait (hs : PhaseInv total g s) (hat : (s.pc t).atBarrier)
    (ht : t < total) (hpt : s.barrier.pc t = .running) (hn : s.barrier.numThreadsWaiting + 1 < total) :
    PhaseInv total g
      { s with
        barrier := ⟨s.barrier.numThreadsWaiting + 1, Function.update s.barrier.pc t .waiting,
          Function.update s.barrier.calls t (s.barrier.calls t + 1), s.barrier.returns⟩ } := by
  obtain ⟨b, hb, hbinv, -⟩ := hs.barrier.arrive_wait ht hpt hn
  rw [barrierStep_arrive_wait ht hpt hn] at hb
  obtain rfl := Option.some.inj hb
  refine ⟨hbinv, hs.returns_eq, fun u hu hau => ?_⟩
  have hut : u ≠ t := fun e => by subst e; simp_all
  simpa [Function.update_noteq hut] using hs.running u hu hau

theorem PhaseInv.arrive_broadcast (hs : PhaseInv total g s) (hat : (s.pc t).atBarrier)
    (ht : t < total) (hpt : s.barrier.pc t = .running)
    (hn : total ≤ s.barrier.numThreadsWaiting + 1) :
    PhaseInv total (g + 1)
      { s with
        barrier := ⟨0, condvarBroadcast s.barrier.pc,
          Function.update s.barrier.calls t (s.barrier.calls t + 1),
          Function.update s.barrier.returns t (s.barrier.returns t + 1)⟩
        pc := Function.update s.pc t (s.pc t).next } := by
  obtain ⟨b, hb, hbinv, -⟩ := hs.barrier.arrive_broadcast ht hpt hn
  rw [barrierStep_arrive_broadcast ht hpt hn] at hb
  obtain rfl := Option.some.inj hb
  refine ⟨hbinv, fun u hu => ?_, fun u hu hau => ?_⟩ <;> by_cases hut : u = t
  · subst hut
    simp [hat, hs.returns_eq u hu]
  · simpa [Function.update_noteq hut] using hs.returns_eq u hu
  · subst hut
    simp [condvarBroadcast, hpt]
  · simp only [Function.update_noteq hut] at hau
    simp [condvarBroadcast, hs.running u hu hau]

theorem PhaseInv.wake (hs : PhaseInv total g s) (hat : (s.pc t).atBarrier) (ht : t < total)
    (hpt : s.barrier.pc t = .woken) :
    PhaseInv total g
      { s with
        barrier := ⟨s.barrier.numThreadsWaiting, Function.update s.barrier.pc t .running,
          s.barrier.calls, Function.update s.barrier.returns t (s.barrier.returns t + 1)⟩
        pc := Function.update s.pc t (s.pc t).next } := by
  obtain ⟨b, hb, hbinv, -⟩ := hs.barrier.wake ht hpt
  rw [barrierStep_wake ht hpt] at hb
  obtain rfl := Option.some.inj hb
  refine ⟨hbinv, fun u hu => ?_, fun u hu hau => ?_⟩ <;> by_cases hut : u = t
  · subst hut
    simp [hat, hs.returns_eq u hu]
  · simpa [Function.update_noteq hut] using hs.returns_eq u hu
  · subst hut
    simp
  · simp only [Function.update_noteq hut] at hau
    simpa [Function.update_noteq hut] using hs.running u hu hau

/-- Every step keeps the invariant, in the same generation of the barrier or the next. -/
theorem PhaseInv.step (hs : PhaseInv total g s) {op : PoolOp} (h : poolStep total s op = some s') :
    PhaseInv total g s' ∨ PhaseInv total (g + 1) s' := by
  cases op with
  | arrive t =>
    obtain ⟨hat, b, hb, rfl⟩ := poolStep_arrive_eq h
    have hg : t < total ∧ s.barrier.pc t = .running := by
      by_contra hg
      simp [barrierStep, hg] at hb
    by_cases hn : total ≤ s.barrier.numThreadsWaiting + 1
    · rw [barrierStep_arrive_broadcast hg.1 hg.2 hn] at hb
      obtain rfl := Option.some.inj hb
      simpa [condvarBroadcast, hg.2] using Or.inr (hs.arrive_broadcast hat hg.1 hg.2 hn)
    · rw [barrierStep_arrive_wait hg.1 hg.2 (by omega)] at hb
      obtain rfl := Option.some.inj hb
      simpa using Or.inl (hs.arrive_wait hat hg.1 hg.2 (by omega))
  | wake t =>
    obtain ⟨hat, b, hb, rfl⟩ := poolStep_wake_eq h
    have hg : t < total ∧ s.barrier.pc t = .woken := by
      by_contra hg
      simp [barrierStep, hg] at hb
    rw [barrierStep_wake hg.1 hg.2] at hb
    obtain rfl := Option.some.inj hb
    exact .inl (hs.wake hat hg.1 hg.2)
  | check t | checkDone t | locked t =>
    simp only [poolStep] at h
    split at h
    · obtain rfl := Option.some.inj h
      exact .inl (hs.update_pc rfl rfl (by split <;> simp [*, WorkerPc.barrierReturns])
        fun _ => by simp [*, WorkerPc.atBarrier])
    · cases h
  | up t =>
    simp only [poolStep] at h
    split at h
    · split_ifs at h
      obtain rfl := Option.some.inj h
      exact .inl (hs.update_pc rfl rfl (by simp [*, WorkerPc.barrierReturns])
        fun _ => by simp [*, WorkerPc.atBarrier])
    · cases h
  | push w =>
    obtain rfl := Option.some.inj h
    exact .inl (hs.of_pc rfl fun _ _ => ⟨rfl, id⟩)
  | release =>
    obtain rfl := Option.some.inj h
    exact .inl (hs.of_pc rfl fun _ _ => ⟨rfl, id⟩)
  | unrelease =>
    obtain rfl := Option.some.inj h
    exact .inl (hs.of_pc rfl fun _ _ => ⟨rfl, id⟩)

/-- Every run keeps the invariant, for some later generation. -/
theorem PhaseInv.run (hs : PhaseInv total g s) {ops : List PoolOp}
    (h : poolRun total s ops = some s') : ∃ g', PhaseInv total g' s' := by
  induction ops generalizing g s with
  | nil => exact ⟨g, Option.some.inj h ▸ hs⟩
  | cons op ops ih =>
    obtain ⟨s₁, h₁, h₂⟩ := Option.bind_eq_some.1 h
    rcases hs.step h₁ with hs₁ | hs₁
    · exact ih hs₁ h₂
    · exact ih hs₁ h₂

/-- A thread's calls of `thread_wait_for_all`: those its place says have returned, and one
more while it is blocked or woken in one. -/
theorem PhaseInv.calls_eq (hs : PhaseInv total g s) (ht : t < total) :
    s.barrier.calls t = (s.pc t).barrierReturns + if s.barrier.pc t = .running then 0 else 1 := by
  rw [← hs.returns_eq t ht, hs.barrier.returns_eq t ht]

end Phase

/-- The two barriers of `thread_start_work`, over every interleaving: once a thread has left
the first `thread_wait_for_all`, every thread has called it, so no thread takes work before
all have started; and once a thread has returned from `thread_start_work`, every other thread
has left its work loop, so none is still in `thread_work_pop` or in a `work->func`. -/
theorem pool_barriers {total : ℕ} (h : 0 < total) (next : ℕ → Option ℕ) {ops : List PoolOp}
    {s : PoolState} (hrun : poolRun total (poolInit next) ops = some s) :
    (∀ t < total, s.pc t ≠ .start → ∀ u < total, 1 ≤ s.barrier.calls u) ∧
      ∀ t < total, s.pc t = .exited → ∀ u < total, s.pc u = .finish ∨ s.pc u = .exited := by
  obtain ⟨g, hs⟩ := (phaseInv_init h next).run hrun
  refine ⟨fun t ht hst u hu => ?_, fun t ht hex u hu => ?_⟩
  · calc 1 ≤ (s.pc t).barrierReturns := by cases hp : s.pc t <;> simp_all [WorkerPc.barrierReturns]
      _ = s.barrier.returns t := (hs.returns_eq t ht).symm
      _ ≤ s.barrier.calls u := hs.barrier.returns_le_calls ht hu
  · have h2 := hs.barrier.returns_le_calls ht hu
    rw [hs.returns_eq t ht, hex, hs.calls_eq hu] at h2
    cases hp : s.pc u with
    | finish => exact .inl rfl
    | exited => exact .inr rfl
    | start => split_ifs at h2 <;> simp_all [WorkerPc.barrierReturns]
    | pop | lock | spin | run _ =>
      simp [hs.running u hu (by simp [hp, WorkerPc.atBarrier]), hp, WorkerPc.barrierReturns] at h2

theorem pool_barriers_two_threads : 0 < 2 ∧ ∃ s, poolRun 2 (poolInit fun _ => none)
      [.push 7, .arrive 0, .arrive 1, .wake 0, .check 1, .locked 1, .release, .check 0,
        .checkDone 0, .up 1, .check 1, .checkDone 1, .arrive 0, .arrive 1] = some s ∧
      (∀ t < 2, s.pc t ≠ .start → ∀ u < 2, 1 ≤ s.barrier.calls u) ∧
      ∀ t < 2, s.pc t = .exited → ∀ u < 2, s.pc u = .finish ∨ s.pc u = .exited :=
  ⟨by decide, _, rfl, @pool_barriers 2 (by decide) (fun _ => none) [.push 7, .arrive 0, .arrive 1,
    .wake 0, .check 1, .locked 1, .release, .check 0, .checkDone 0, .up 1, .check 1, .checkDone 1,
    .arrive 0, .arrive 1] _ rfl⟩

/-! ### Every item runs once -/

/-- How many threads are in `work->func` of the item `w`. -/
def runCount (total : ℕ) (pc : ℕ → WorkerPc) (w : ℕ) : ℕ :=
  ((Finset.range total).filter fun t => pc t = .run w).card

/-- Counting the threads running `w` under `f`, which agrees with `pc` off thread `t`: those
other than `t` that `pc` has running `w`, and `t` if `f` has it running `w`. -/
theorem runCount_split {total t : ℕ} (ht : t < total) (pc f : ℕ → WorkerPc)
    (hf : ∀ u ≠ t, f u = pc u) (w : ℕ) :
    runCount total f w = (((Finset.range total).erase t).filter fun u => pc u = .run w).card +
      if f t = .run w then 1 else 0 := by
  have hc : ((Finset.range total).erase t).filter (fun u => f u = .run w) =
      ((Finset.range total).erase t).filter (fun u => pc u = .run w) :=
    Finset.filter_congr fun u hu => by rw [hf u (Finset.ne_of_mem_erase hu)]
  have hins := Finset.insert_erase (Finset.mem_range.2 ht)
  unfold runCount
  conv_lhs => rw [← hins, Finset.filter_insert]
  split_ifs with h
  · rw [Finset.card_insert_of_not_mem (by simp), hc]
  · rw [hc, Nat.add_zero]

theorem runCount_update {total t : ℕ} (ht : t < total) (pc : ℕ → WorkerPc) (p : WorkerPc)
    (w : ℕ) : runCount total (Function.update pc t p) w + (if pc t = .run w then 1 else 0) =
      runCount total pc w + (if p = .run w then 1 else 0) := by
  rw [runCount_split ht pc _ (fun u hu => Function.update_noteq hu p pc),
    runCount_split ht pc pc (fun _ _ => rfl), Function.update_same]
  omega

theorem runCount_update_of_not_run {total t : ℕ} (ht : t < total) {pc : ℕ → WorkerPc}
    {p : WorkerPc} (hp : ∀ w, p ≠ .run w) (hpt : ∀ w, pc t ≠ .run w) (w : ℕ) :
    runCount total (Function.update pc t p) w = runCount total pc w := by
  simpa [hp w, hpt w] using runCount_update ht pc p w

/-- The queue holds the queued items in order; each push of an item is queued, being run, or
done; and no item is queued twice, run by two threads, or queued while it runs. -/
structure WorkInv (total : ℕ) (s : PoolState) : Prop where
  queue : QueueRepr s.queue s.items
  pushes_eq : ∀ w, s.pushes w = s.items.count w + runCount total s.pc w + s.ups w
  once : ∀ w, s.items.count w + runCount total s.pc w ≤ 1

/-- The driving thread's part: it pushes an item only when the item is neither queued nor
being run, having waited on its `done` before reusing it. -/
def pushFresh (total : ℕ) (s : PoolState) : PoolOp → Prop
  | .push w => w ∉ s.items ∧ ∀ t < total, s.pc t ≠ .run w
  | _ => True

instance (total : ℕ) (s : PoolState) : (op : PoolOp) → Decidable (pushFresh total s op)
  | .push w => inferInstanceAs (Decidable (w ∉ s.items ∧ ∀ t < total, s.pc t ≠ .run w))
  | .arrive _ => isTrue trivial
  | .wake _ => isTrue trivial
  | .check _ => isTrue trivial
  | .checkDone _ => isTrue trivial
  | .locked _ => isTrue trivial
  | .up _ => isTrue trivial
  | .release => isTrue trivial
  | .unrelease => isTrue trivial

/-- Every push of a run is fresh. -/
def FreshRun (total : ℕ) : PoolState → List PoolOp → Prop
  | _, [] => True
  | s, op :: ops => pushFresh total s op ∧
    match poolStep total s op with
    | some s' => FreshRun total s' ops
    | none => True

instance decidableFreshRun (total : ℕ) : (s : PoolState) → (ops : List PoolOp) →
    Decidable (FreshRun total s ops)
  | _, [] => isTrue trivial
  | s, op :: ops =>
    haveI : Decidable (match poolStep total s op with
        | some s' => FreshRun total s' ops
        | none => True) :=
      match poolStep total s op with
      | some s' => decidableFreshRun total s' ops
      | none => isTrue trivial
    inferInstanceAs (Decidable (pushFresh total s op ∧ _))

section Work

variable {total : ℕ} {s s' : PoolState}

theorem workInv_init (total : ℕ) (next : ℕ → Option ℕ) : WorkInv total (poolInit next) :=
  ⟨QueueRepr.empty next, fun _ => by simp [poolInit, runCount],
    fun _ => by simp [poolInit, runCount]⟩

/-- A step that leaves the queue and the counters alone and moves no thread into or out of a
`work->func` keeps the invariant. -/
theorem WorkInv.of_pc (hw : WorkInv total s) (hq : s'.queue = s.queue) (hi : s'.items = s.items)
    (hp : s'.pushes = s.pushes) (hu : s'.ups = s.ups)
    (hr : ∀ w, runCount total s'.pc w = runCount total s.pc w) : WorkInv total s' :=
  ⟨hq ▸ hi ▸ hw.queue, fun w => by rw [hp, hi, hr, hu, hw.pushes_eq],
    fun w => by rw [hi, hr]; exact hw.once w⟩

/-- Every step keeps the invariant, a push being fresh. -/
theorem WorkInv.step (hw : WorkInv total s) {op : PoolOp} (hf : pushFresh total s op)
    (h : poolStep total s op = some s') : WorkInv total s' := by
  cases op with
  | arrive t =>
    obtain ⟨hat, b, hb, rfl⟩ := poolStep_arrive_eq h
    have ht : t < total := by by_contra ht; simp [barrierStep, ht] at hb
    refine hw.of_pc rfl rfl rfl rfl fun w => ?_
    split_ifs
    · exact runCount_update_of_not_run ht (WorkerPc.next_ne_run hat)
        (WorkerPc.ne_run_of_atBarrier hat) w
    · rfl
  | wake t =>
    obtain ⟨hat, b, hb, rfl⟩ := poolStep_wake_eq h
    have ht : t < total := by by_contra ht; simp [barrierStep, ht] at hb
    exact hw.of_pc rfl rfl rfl rfl fun w => runCount_update_of_not_run ht
      (WorkerPc.next_ne_run hat) (WorkerPc.ne_run_of_atBarrier hat) w
  | check t | checkDone t =>
    simp only [poolStep] at h
    split at h
    · rename_i hg
      obtain rfl := Option.some.inj h
      exact hw.of_pc rfl rfl rfl rfl fun w => runCount_update_of_not_run hg.1
        (by split <;> simp) (by simp [hg.2]) w
    · cases h
  | locked t =>
    simp only [poolStep] at h
    split_ifs at h with hg
    obtain rfl := Option.some.inj h
    obtain ⟨hhead, hq⟩ := hw.queue.popLocked
    simp only [threadWorkStep, hhead]
    cases hi : s.items with
    | nil =>
      have hr := @runCount_update_of_not_run total t hg.1 s.pc .pop (by simp) (by simp [hg.2])
      exact ⟨by simpa [threadWorkStep, hi] using hq, by simpa [hi, hr] using hw.pushes_eq,
        by simpa [hi, hr] using hw.once⟩
    | cons a rest =>
      simp only [hi, List.head?_cons, Option.map_some', List.tail_cons]
      rw [hi] at hq
      refine ⟨hq, fun w => ?_, fun w => ?_⟩ <;>
      · have hr := runCount_update hg.1 s.pc (.run a) w
        have hp := hw.pushes_eq w
        have ho := hw.once w
        rw [hi] at hp ho
        by_cases haw : a = w
        · subst haw
          simp only [hg.2, List.count_cons_self, reduceCtorEq, if_false, eq_self_iff_true,
            if_true] at hr hp ho ⊢
          omega
        · simp only [hg.2, List.count_cons, beq_iff_eq, haw, if_false, WorkerPc.run.injEq,
            reduceCtorEq] at hr hp ho ⊢
          omega
  | up t =>
    simp only [poolStep] at h
    split at h
    · rename_i w hrun
      split_ifs at h with ht
      obtain rfl := Option.some.inj h
      refine ⟨hw.queue, fun v => ?_, fun v => ?_⟩ <;>
      · have hr := runCount_update ht s.pc .pop v
        have hp := hw.pushes_eq v
        have ho := hw.once v
        by_cases hwv : w = v
        · subst hwv
          simp only [hrun, if_true, reduceCtorEq, if_false, Function.update_same] at hr hp ho ⊢
          omega
        · simp only [hrun, WorkerPc.run.injEq, hwv, if_false, reduceCtorEq,
            Function.update_noteq (Ne.symm hwv)] at hr hp ho ⊢
          omega
    · cases h
  | push w =>
    obtain rfl := Option.some.inj h
    obtain ⟨hwi, hwr⟩ := hf
    have hr : runCount total s.pc w = 0 := Finset.card_eq_zero.2 (Finset.filter_eq_empty_iff.2
      fun t ht => hwr t (Finset.mem_range.1 ht))
    refine ⟨hw.queue.push hwi, fun v => ?_, fun v => ?_⟩ <;> by_cases hwv : w = v
    · subst hwv
      simp [List.count_eq_zero_of_not_mem hwi, hr, hw.pushes_eq w, Nat.add_comm]
    · simp [Function.update_noteq (Ne.symm hwv), List.count_singleton', hw.pushes_eq v, Ne.symm hwv]
    · subst hwv
      simp [List.count_eq_zero_of_not_mem hwi, hr]
    · simpa [List.count_singleton', Ne.symm hwv] using hw.once v
  | release =>
    obtain rfl := Option.some.inj h
    exact hw.of_pc rfl rfl rfl rfl fun _ => rfl
  | unrelease =>
    obtain rfl := Option.some.inj h
    exact hw.of_pc rfl rfl rfl rfl fun _ => rfl

theorem WorkInv.run (hw : WorkInv total s) {ops : List PoolOp} (hf : FreshRun total s ops)
    (h : poolRun total s ops = some s') : WorkInv total s' := by
  induction ops generalizing s with
  | nil => exact Option.some.inj h ▸ hw
  | cons op ops ih =>
    obtain ⟨s₁, h₁, h₂⟩ := Option.bind_eq_some.1 h
    obtain ⟨hf₁, hf₂⟩ := hf
    rw [h₁] at hf₂
    exact ih (hw.step hf₁ h₁) hf₂ h₂

end Work

/-- Every item runs once, over every interleaving in which the driving thread pushes an item
only when it is neither queued nor being run. The work queue is the linked list of the items
still queued, in push order: `s.items` gains each pushed item at its end, and the locked
section of `thread_work_pop` takes its first. For each item, its pushes are exactly those
still queued, being run by a thread, or done (`sema_up` called on its `done`); at most one of
them is queued or running, so no item is queued twice, run by two threads at once, or run
while still queued. -/
theorem pool_work_once {total : ℕ} (next : ℕ → Option ℕ) {ops : List PoolOp} {s : PoolState}
    (hfresh : FreshRun total (poolInit next) ops) (hrun : poolRun total (poolInit next) ops = some s) :
    QueueRepr s.queue s.items ∧ ∀ w, s.pushes w = s.items.count w + runCount total s.pc w + s.ups w ∧
      s.items.count w + runCount total s.pc w ≤ 1 := by
  have hw := (workInv_init total next).run hfresh hrun
  exact ⟨hw.queue, fun w => ⟨hw.pushes_eq w, hw.once w⟩⟩

theorem pool_work_once_two_threads :
    FreshRun 2 (poolInit fun _ => none) [.push 7, .push 8, .arrive 0, .arrive 1, .wake 0,
      .check 1, .locked 1, .check 0, .locked 0, .up 1, .push 7] ∧
    ∃ s, poolRun 2 (poolInit fun _ => none) [.push 7, .push 8, .arrive 0, .arrive 1, .wake 0,
        .check 1, .locked 1, .check 0, .locked 0, .up 1, .push 7] = some s ∧
      QueueRepr s.queue s.items ∧ ∀ w, s.pushes w = s.items.count w + runCount 2 s.pc w + s.ups w ∧
        s.items.count w + runCount 2 s.pc w ≤ 1 :=
  have h : FreshRun 2 (poolInit fun _ => none) [.push 7, .push 8, .arrive 0, .arrive 1, .wake 0,
      .check 1, .locked 1, .check 0, .locked 0, .up 1, .push 7] := by decide
  ⟨h, _, rfl, pool_work_once _ h rfl⟩

end DistributedSgxSort
