import Mathlib.Data.List.Chain
import Mathlib.Data.List.Nodup

/-! The work queue of `threading.c`.

`work_head`, `work_tail` and the `next` field of each item form a singly linked FIFO of
`struct thread_work` pointers, modelled as addresses. `thread_work_push` and the locked
part of `thread_work_pop` run under `thread_work_lock`, so an execution is a sequence of
those sections (`push`, `locked`) and of the unlocked tests of the spin loop
`while (!work_head) { if (work_done) goto exit; }` (`check`). `work_done` is set
and cleared by `thread_release_all` and `thread_unrelease_all`, outside such a sequence,
so it is a parameter here. -/
namespace DistributedSgxSort

/-- `work_head`, `work_tail` and the `next` field of every item. -/
structure QueueState where
  workHead : Option ℕ
  workTail : Option ℕ
  next : ℕ → Option ℕ

/-- `thread_work_push(work)`. -/
def threadWorkPush (work : ℕ) (s : QueueState) : QueueState :=
  let next := Function.update s.next work none
  match s.workTail with
  | none => ⟨some work, some work, next⟩
  | some tail => ⟨s.workHead, some work, Function.update next tail (some work)⟩

/-- The section of `thread_work_pop` under the lock: the item taken, if any. -/
def threadWorkPopLocked (s : QueueState) : Option ℕ × QueueState :=
  match s.workHead with
  | none => (none, s)
  | some head =>
    (some head, ⟨s.next head, if s.next head = none then none else s.workTail, s.next⟩)

inductive QueueOp
  | push (work : ℕ)
  | check
  | locked
  deriving DecidableEq, Repr

/-- One step, and what `thread_work_pop` returns at it: `some none` is a `NULL` return,
`some (some w)` a return of `w`, `none` no return. -/
def threadWorkStep (workDone : Bool) (s : QueueState) : QueueOp → QueueState × Option (Option ℕ)
  | .push work => (threadWorkPush work s, none)
  | .check => (s, if s.workHead = none ∧ workDone then some none else none)
  | .locked =>
    let r := threadWorkPopLocked s
    (r.2, r.1.map some)

/-- An execution: the final state and the values returned by `thread_work_pop`. -/
def threadWorkRun (workDone : Bool) (s : QueueState) : List QueueOp → QueueState × List (Option ℕ)
  | [] => (s, [])
  | op :: ops =>
    let r := threadWorkStep workDone s op
    let rest := threadWorkRun workDone r.1 ops
    (rest.1, r.2.toList ++ rest.2)

/-! ### The queue it implements -/

/-- A FIFO queue: the step of the abstract model. -/
def fifoStep (workDone : Bool) (q : List ℕ) : QueueOp → List ℕ × Option (Option ℕ)
  | .push work => (q ++ [work], none)
  | .check => (q, if q = [] ∧ workDone then some none else none)
  | .locked =>
    match q with
    | [] => ([], none)
    | w :: q => (q, some (some w))

def fifoRun (workDone : Bool) (q : List ℕ) : List QueueOp → List ℕ × List (Option ℕ)
  | [] => (q, [])
  | op :: ops =>
    let r := fifoStep workDone q op
    let rest := fifoRun workDone r.1 ops
    (rest.1, r.2.toList ++ rest.2)

/-- Every item pushed is not in the queue at the time. -/
def FreshPushes (workDone : Bool) : List ℕ → List QueueOp → Prop
  | _, [] => True
  | q, .push w :: ops => w ∉ q ∧ FreshPushes workDone (q ++ [w]) ops
  | q, op :: ops => FreshPushes workDone (fifoStep workDone q op).1 ops

instance decidableFreshPushes (workDone : Bool) :
    (q : List ℕ) → (ops : List QueueOp) → Decidable (FreshPushes workDone q ops)
  | _, [] => isTrue trivial
  | q, .push w :: ops =>
    haveI := decidableFreshPushes workDone (q ++ [w]) ops
    inferInstanceAs (Decidable (w ∉ q ∧ _))
  | q, .check :: ops => decidableFreshPushes workDone (fifoStep workDone q .check).1 ops
  | q, .locked :: ops => decidableFreshPushes workDone (fifoStep workDone q .locked).1 ops

theorem FreshPushes.cons {workDone : Bool} {q : List ℕ} {op : QueueOp} {ops : List QueueOp}
    (h : FreshPushes workDone q (op :: ops)) :
    (∀ w, op = .push w → w ∉ q) ∧ FreshPushes workDone (fifoStep workDone q op).1 ops := by
  cases op with
  | push w => exact ⟨fun _ e => QueueOp.push.inj e ▸ h.1, h.2⟩
  | check => exact ⟨fun _ e => QueueOp.noConfusion e, h⟩
  | locked => exact ⟨fun _ e => QueueOp.noConfusion e, h⟩

/-- The representation invariant: `work_head` and `work_tail` point to the ends of the
queue, `next` links each item to the following one, and the tail's `next` is `NULL`. -/
structure QueueRepr (s : QueueState) (q : List ℕ) : Prop where
  head : s.workHead = q.head?
  tail : s.workTail = q.getLast?
  link : q.Chain' fun a b => s.next a = some b
  last : ∀ t ∈ q.getLast?, s.next t = none
  nodup : q.Nodup

/-- `k` steps along `next` from `a`. -/
def followNext (next : ℕ → Option ℕ) : ℕ → ℕ → Option ℕ
  | 0, a => some a
  | k + 1, a => (next a).bind (followNext next k)

namespace QueueRepr

variable {s : QueueState} {q : List ℕ}

theorem empty (next : ℕ → Option ℕ) : QueueRepr ⟨none, none, next⟩ [] :=
  ⟨rfl, rfl, List.chain'_nil, by simp, List.nodup_nil⟩

/-- `thread_work_push` appends an item that is not queued. -/
theorem push {w : ℕ} (h : QueueRepr s q) (hw : w ∉ q) :
    QueueRepr (threadWorkPush w s) (q ++ [w]) := by
  cases ht : q.getLast? with
  | none =>
    obtain rfl : q = [] := List.getLast?_eq_none_iff.1 ht
    have : s.workTail = none := h.tail
    simp only [threadWorkPush, this]
    exact ⟨rfl, rfl, List.chain'_singleton w, by simp, List.nodup_singleton w⟩
  | some t =>
    have hts : s.workTail = some t := h.tail.trans ht
    have htq : t ∈ q := List.mem_of_getLast?_eq_some ht
    have hwt : w ≠ t := fun e => hw (e ▸ htq)
    have hq : q ≠ [] := List.ne_nil_of_mem htq
    simp only [threadWorkPush, hts]
    obtain ⟨a, ha⟩ := Option.ne_none_iff_exists'.1 (mt List.head?_eq_none_iff.1 hq)
    refine ⟨by simp [h.head, ha], by simp,
      List.chain'_append.2 ⟨?_, List.chain'_singleton w, by simp [ht]⟩,
      by simp [Function.update_apply, hwt], List.nodup_append.2 ⟨h.nodup, List.nodup_singleton w,
        by simpa using hw⟩⟩
    refine (List.Chain'.iff_mem.1 h.link).imp fun a b ⟨ha, _, hab⟩ => ?_
    have hat : a ≠ t := fun e => by simp [e, h.last t ht] at hab
    have haw : a ≠ w := fun e => hw (e ▸ ha)
    simpa [Function.update_apply, hat, haw] using hab

/-- The locked section of `thread_work_pop` takes the head and leaves the rest. -/
theorem popLocked (h : QueueRepr s q) :
    (threadWorkPopLocked s).1 = q.head? ∧ QueueRepr (threadWorkPopLocked s).2 q.tail := by
  cases q with
  | nil =>
    have : s.workHead = none := h.head
    simp only [threadWorkPopLocked, this]
    exact ⟨rfl, h⟩
  | cons a q =>
    have ha : s.workHead = some a := h.head
    have hnext : s.next a = q.head? := by
      cases q with
      | nil => exact h.last a (by simp)
      | cons b q => exact (List.chain'_cons.1 h.link).1
    simp only [threadWorkPopLocked, ha, List.head?_cons, List.tail_cons, true_and, hnext]
    refine ⟨rfl, ?_, h.link.tail, fun t ht => h.last t (by cases q <;> simp_all),
      (List.nodup_cons.1 h.nodup).2⟩
    cases q with
    | nil => rfl
    | cons b q => simpa [List.getLast?_cons_cons] using h.tail

/-- One step keeps the invariant and returns what the FIFO returns. -/
theorem step (workDone : Bool) (op : QueueOp) (h : QueueRepr s q)
    (hw : ∀ w, op = .push w → w ∉ q) :
    QueueRepr (threadWorkStep workDone s op).1 (fifoStep workDone q op).1 ∧
      (threadWorkStep workDone s op).2 = (fifoStep workDone q op).2 := by
  cases op with
  | push w => exact ⟨h.push (hw w rfl), rfl⟩
  | check =>
    refine ⟨h, ?_⟩
    simp only [threadWorkStep, fifoStep, h.head, List.head?_eq_none_iff]
  | locked =>
    obtain ⟨h1, h2⟩ := h.popLocked
    cases q <;> simp_all [threadWorkStep, fifoStep]

/-- Following `next` from `work_head` reaches `work_tail` in `size - 1` steps. -/
theorem followNext_head (h : QueueRepr s q) :
    ∀ a ∈ s.workHead, followNext s.next (q.length - 1) a = s.workTail := by
  intro a ha
  rw [h.head] at ha
  obtain ⟨l, rfl⟩ : ∃ l, q = a :: l := by cases q <;> simp_all
  rw [h.tail, List.length_cons, Nat.add_sub_cancel]
  have hl := h.link
  clear h ha
  induction l generalizing a with
  | nil => rfl
  | cons b l ih =>
    rw [List.chain'_cons] at hl
    simp only [followNext, List.length_cons, hl.1, Option.some_bind, ih b hl.2,
      List.getLast?_cons_cons]

end QueueRepr

/-- The items pushed, in order. -/
def pushedItems : List QueueOp → List ℕ
  | [] => []
  | .push w :: ops => w :: pushedItems ops
  | _ :: ops => pushedItems ops

theorem FreshPushes.append {workDone : Bool} {q : List ℕ} {ops₁ ops₂ : List QueueOp}
    (h : FreshPushes workDone q (ops₁ ++ ops₂)) : FreshPushes workDone q ops₁ := by
  induction ops₁ generalizing q with
  | nil => trivial
  | cons op ops ih =>
    cases op with
    | push w => exact ⟨h.1, ih h.2⟩
    | check => exact ih h
    | locked => exact ih h

/-- A whole execution keeps the invariant and returns what the FIFO returns. -/
theorem QueueRepr.run {workDone : Bool} {s : QueueState} {q : List ℕ} {ops : List QueueOp}
    (h : QueueRepr s q) (hf : FreshPushes workDone q ops) :
    QueueRepr (threadWorkRun workDone s ops).1 (fifoRun workDone q ops).1 ∧
      (threadWorkRun workDone s ops).2 = (fifoRun workDone q ops).2 := by
  induction ops generalizing s q with
  | nil => exact ⟨h, rfl⟩
  | cons op ops ih =>
    obtain ⟨h1, h2⟩ := h.step workDone op hf.cons.1
    obtain ⟨h3, h4⟩ := ih h1 hf.cons.2
    exact ⟨h3, by simp only [threadWorkRun, fifoRun, h2, h4]⟩

/-- The FIFO returns the pushed items in push order; the rest are still queued. -/
theorem fifoRun_returns (workDone : Bool) (q : List ℕ) (ops : List QueueOp) :
    (fifoRun workDone q ops).2.filterMap id ++ (fifoRun workDone q ops).1 = q ++ pushedItems ops := by
  induction ops generalizing q with
  | nil => simp [fifoRun, pushedItems]
  | cons op ops ih =>
    cases op with
    | push w => simpa [fifoRun, fifoStep, pushedItems] using ih (q ++ [w])
    | check =>
      have := ih q
      by_cases hq : q = [] ∧ workDone = true <;> simp_all [fifoRun, fifoStep, pushedItems]
    | locked =>
      cases q with
      | nil => simpa [fifoRun, fifoStep, pushedItems] using ih []
      | cons w q => simpa [fifoRun, fifoStep, pushedItems] using ih q

/-- Every execution of pushes of items that are not queued, locked pop sections and spin
checks, from the empty queue: the invariant holds at its end; `thread_work_pop` returns
the pushed items in push order, each push at most once and none skipped; and it returns
`NULL` only at a check where `work_done` is set and the queue is empty. -/
theorem threadWork_fifo (workDone : Bool) (next : ℕ → Option ℕ) (ops : List QueueOp)
    (hfresh : FreshPushes workDone [] ops) :
    let r := threadWorkRun workDone ⟨none, none, next⟩ ops
    let q := (fifoRun workDone [] ops).1
    (r.1.workHead = none ↔ r.1.workTail = none) ∧
      (∀ a ∈ r.1.workHead, followNext r.1.next (q.length - 1) a = r.1.workTail) ∧
      (∀ t ∈ r.1.workTail, r.1.next t = none) ∧
      r.2.filterMap id ++ q = pushedItems ops ∧
      ∀ ops₁ ops₂, ops = ops₁ ++ .check :: ops₂ →
        (threadWorkStep workDone (threadWorkRun workDone ⟨none, none, next⟩ ops₁).1 .check).2 =
          some none → workDone = true ∧ (fifoRun workDone [] ops₁).1 = []
  := by
  dsimp only
  obtain ⟨hr, hout⟩ := (QueueRepr.empty next).run hfresh
  refine ⟨by rw [hr.head, hr.tail, List.head?_eq_none_iff, List.getLast?_eq_none_iff],
    hr.followNext_head, fun t ht => hr.last t (hr.tail ▸ ht), ?_, fun ops₁ ops₂ hops hnull => ?_⟩
  · simpa [hout] using fifoRun_returns workDone [] ops
  · subst hops
    obtain ⟨hr₁, -⟩ := (QueueRepr.empty next).run hfresh.append
    rw [(hr₁.step workDone .check (by simp)).2] at hnull
    simp only [fifoStep, Option.ite_none_right_eq_some, Option.some.injEq, and_true] at hnull
    exact ⟨hnull.2, hnull.1⟩

theorem threadWork_fifo_reuse :
    FreshPushes true [] [.push 1, .push 2, .locked, .push 1, .check, .locked, .locked, .check] ∧
      (threadWorkRun true ⟨none, none, fun _ => none⟩
        [.push 1, .push 2, .locked, .push 1, .check, .locked, .locked, .check]).2.filterMap id ++
        (fifoRun true [] [.push 1, .push 2, .locked, .push 1, .check, .locked, .locked, .check]).1 =
        pushedItems [.push 1, .push 2, .locked, .push 1, .check, .locked, .locked, .check] :=
  have h : FreshPushes true [] [.push 1, .push 2, .locked, .push 1, .check, .locked, .locked,
      .check] := by decide
  ⟨h, (threadWork_fifo true (fun _ => none) _ h).2.2.2.1⟩

end DistributedSgxSort
