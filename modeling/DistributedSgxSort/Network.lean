import Mathlib.Logic.Function.Basic
import Mathlib.Data.List.Nodup

/-! Workers exchanging messages on one tag of `mpi_tls`. A worker's program is a `Proc`, a
tree of blocking sends and receives whose leaves are its results. A send returns once its
message is queued (the transport copies outbound buffers before returning), a receive takes
the oldest message of the channel from its source and blocks while that channel is empty,
and each channel from one worker to another is FIFO.

Steps of two workers commute, so a network that reaches a state where no worker can step
reaches the same one whatever the order of the steps, and every order takes the same
number of steps to get there. -/
namespace DistributedSgxSort

/-- A worker's remaining program over messages `M` with result `α`. `stop` takes no step
and has no result: a worker absent from the network, or one that has left the modelled
behaviour. -/
inductive Proc (M α : Type) where
  | done (a : α)
  | stop
  | send (dst : ℕ) (m : M) (k : Proc M α)
  | recv (src : ℕ) (k : M → Proc M α)

namespace Proc

variable {M α β γ : Type}

/-- Run `p`, then `f` on its result. -/
def bind : Proc M α → (α → Proc M β) → Proc M β
  | done a, f => f a
  | stop, _ => stop
  | send dst m k, f => send dst m (bind k f)
  | recv src k, f => recv src fun m => bind (k m) f

instance : Monad (Proc M) where
  pure := done
  bind := bind

@[simp] theorem pure_eq (a : α) : (pure a : Proc M α) = done a := rfl
@[simp] theorem done_bind (a : α) (f : α → Proc M β) : done a >>= f = f a := rfl
@[simp] theorem stop_bind (f : α → Proc M β) : (stop : Proc M α) >>= f = stop := rfl
@[simp] theorem send_bind (dst : ℕ) (m : M) (k : Proc M α) (f : α → Proc M β) :
    send dst m k >>= f = send dst m (k >>= f) := rfl
@[simp] theorem recv_bind (src : ℕ) (k : M → Proc M α) (f : α → Proc M β) :
    recv src k >>= f = recv src fun m => k m >>= f := rfl

theorem bind_assoc (p : Proc M α) (f : α → Proc M β) (g : β → Proc M γ) :
    p >>= f >>= g = p >>= fun a => f a >>= g := by
  induction p with
  | done a => rfl
  | stop => rfl
  | send dst m k ih => exact congrArg (send dst m) ih
  | recv src k ih => exact congrArg (recv src) (funext ih)

@[simp] theorem bind_done (p : Proc M α) : p >>= done = p := by
  induction p with
  | done a => rfl
  | stop => rfl
  | send dst m k ih => exact congrArg (send dst m) ih
  | recv src k ih => exact congrArg (recv src) (funext ih)

/-- A receive from `src` of a message that `decode` reads; a message of another kind leaves
the modelled behaviour. -/
def recvAs (src : ℕ) (decode : M → Option β) : Proc M β :=
  recv src fun m => match decode m with
    | some b => done b
    | none => stop

/-- `for (i …) if (i != rank) send(m, i)` over the indices `is`. -/
def sendOthers (rank : ℕ) (m : M) : List ℕ → Proc M Unit
  | [] => done ()
  | i :: is => if i = rank then sendOthers rank m is else send i m (sendOthers rank m is)

/-- The value a receive loop folds from the values `vals i` sent by the other workers and
its own value `own`, if it folds one. -/
def foldRecv (rank : ℕ) (own : Option β) (f : γ → ℕ → β → γ) (vals : ℕ → β) :
    List ℕ → γ → γ
  | [], acc => acc
  | i :: is, acc => foldRecv rank own f vals is <|
      if i = rank then (match own with
        | some b => f acc i b
        | none => acc)
      else f acc i (vals i)

/-- `for (i …) { if (i != rank) recv(&v, i); else v = own; acc = f(acc, i, v); }` over the
indices `is`, where a missing `own` skips the worker's own index. -/
def recvFold (rank : ℕ) (decode : M → Option β) (own : Option β) (f : γ → ℕ → β → γ) :
    List ℕ → γ → Proc M γ
  | [], acc => done acc
  | i :: is, acc =>
    if i = rank then recvFold rank decode own f is (match own with
      | some b => f acc i b
      | none => acc)
    else recvAs i decode >>= fun b => recvFold rank decode own f is (f acc i b)

theorem foldRecv_own {rank : ℕ} {f : γ → ℕ → β → γ} {vals : ℕ → β} (is : List ℕ) (acc : γ) :
    foldRecv rank (some (vals rank)) f vals is acc = is.foldl (fun a i => f a i (vals i)) acc := by
  induction is generalizing acc with
  | nil => rfl
  | cons i is ih =>
    simp only [foldRecv, List.foldl_cons]
    split_ifs with h
    · subst h; exact ih _
    · exact ih _

theorem recvFold_single {rank src : ℕ} (h : src ≠ rank) (decode : M → Option β) (b : β)
    (k : β → Proc M α) :
    recvFold rank decode none (fun _ _ b => b) [src] b >>= k = recvAs src decode >>= k := by
  simp only [recvFold, if_neg h, bind_assoc]
  exact congrArg (recvAs src decode >>= ·) (funext fun _ => rfl)

theorem sendOthers_single {rank dst : ℕ} (h : dst ≠ rank) (m : M) (k : Proc M α) :
    (sendOthers rank m [dst] >>= fun _ => k) = send dst m k := by
  simp [sendOthers, h]

end Proc

/-- The workers' remaining programs and the channels, indexed by (sender, receiver). -/
structure Net (M α : Type) where
  procs : ℕ → Proc M α
  chans : ℕ × ℕ → List M

namespace Net

variable {M α : Type}

/-- One step of worker `w`, if it can take one. -/
def step (s : Net M α) (w : ℕ) : Option (Net M α) :=
  match s.procs w with
  | .send dst m k =>
    some ⟨Function.update s.procs w k, Function.update s.chans (w, dst) (s.chans (w, dst) ++ [m])⟩
  | .recv src k =>
    match s.chans (src, w) with
    | m :: rest => some ⟨Function.update s.procs w (k m), Function.update s.chans (src, w) rest⟩
    | [] => none
  | _ => none

/-- The steps of the workers of a schedule, in order, if each can be taken. -/
def run (s : Net M α) : List ℕ → Option (Net M α)
  | [] => some s
  | w :: ws => (s.step w).bind fun s' => s'.run ws

/-- No worker can step. -/
def Terminal (s : Net M α) : Prop := ∀ w, s.step w = none

theorem step_send {s : Net M α} {w dst : ℕ} {m : M} {k : Proc M α} (h : s.procs w = .send dst m k) :
    s.step w = some ⟨Function.update s.procs w k,
      Function.update s.chans (w, dst) (s.chans (w, dst) ++ [m])⟩ := by
  simp [step, h]

theorem step_recv {s : Net M α} {w src : ℕ} {k : M → Proc M α} {m : M} {rest : List M}
    (h : s.procs w = .recv src k) (hc : s.chans (src, w) = m :: rest) :
    s.step w = some ⟨Function.update s.procs w (k m), Function.update s.chans (src, w) rest⟩ := by
  simp [step, h, hc]

/-- A step sends the head of the program, or receives the head of its source's channel. -/
theorem step_eq_some {s s' : Net M α} {w : ℕ} (h : s.step w = some s') :
    (∃ dst m k, s.procs w = .send dst m k ∧ s' = ⟨Function.update s.procs w k,
      Function.update s.chans (w, dst) (s.chans (w, dst) ++ [m])⟩) ∨
    (∃ src k m rest, s.procs w = .recv src k ∧ s.chans (src, w) = m :: rest ∧
      s' = ⟨Function.update s.procs w (k m), Function.update s.chans (src, w) rest⟩) := by
  unfold step at h
  split at h
  · exact .inl ⟨_, _, _, ‹_›, (Option.some.inj h).symm⟩
  · split at h
    · exact .inr ⟨_, _, _, _, ‹_›, ‹_›, (Option.some.inj h).symm⟩
    · cases h
  · cases h

@[simp] theorem run_nil (s : Net M α) : s.run [] = some s := rfl

theorem run_cons (s : Net M α) (w : ℕ) (ws : List ℕ) :
    s.run (w :: ws) = (s.step w).bind fun s' => s'.run ws := rfl

theorem run_append (s : Net M α) (ws ws' : List ℕ) :
    s.run (ws ++ ws') = (s.run ws).bind fun s' => s'.run ws' := by
  induction ws generalizing s with
  | nil => rfl
  | cons w ws ih =>
    simp only [List.cons_append, run_cons]
    cases s.step w <;> simp [ih]

theorem run_trans {s s₁ s₂ : Net M α} {ws ws' : List ℕ} (h₁ : s.run ws = some s₁)
    (h₂ : s₁.run ws' = some s₂) : s.run (ws ++ ws') = some s₂ := by
  rw [run_append, h₁]
  exact h₂

/-- Steps of two different workers commute: a send only appends to its channel and a
receive only takes the head of its own, and no two workers receive on one channel. -/
theorem step_comm {s s₁ s₂ : Net M α} {w₁ w₂ : ℕ} (hne : w₁ ≠ w₂) (h₁ : s.step w₁ = some s₁)
    (h₂ : s.step w₂ = some s₂) : ∃ t, s₁.step w₂ = some t ∧ s₂.step w₁ = some t := by
  have hp : ∀ {f : ℕ → Proc M α} {p p' : Proc M α} {w w' : ℕ}, w ≠ w' → f w = p →
      Function.update f w' p' w = p := fun hw h => by rwa [Function.update_noteq hw]
  rcases step_eq_some h₁ with ⟨d₁, m₁, k₁, hp₁, rfl⟩ | ⟨c₁, k₁, m₁, r₁, hp₁, hc₁, rfl⟩ <;>
  rcases step_eq_some h₂ with ⟨d₂, m₂, k₂, hp₂, rfl⟩ | ⟨c₂, k₂, m₂, r₂, hp₂, hc₂, rfl⟩
  · have hc : (w₁, d₁) ≠ (w₂, d₂) := fun h => hne (Prod.mk.inj_iff.1 h).1
    refine ⟨_, step_send (hp hne.symm hp₂), (step_send (hp hne hp₁)).trans ?_⟩
    simp only [Function.update_noteq hc.symm, Function.update_noteq hc, Option.some.injEq,
      Net.mk.injEq]
    exact ⟨Function.update_comm hne.symm _ _ _, Function.update_comm hc.symm _ _ _⟩
  · by_cases hc : (w₁, d₁) = (c₂, w₂)
    · obtain ⟨rfl, rfl⟩ := Prod.mk.inj_iff.1 hc
      refine ⟨_, step_recv (hp hne.symm hp₂)
        (show _ = m₂ :: (r₂ ++ [m₁]) by simp [hc₂]), (step_send (hp hne hp₁)).trans ?_⟩
      simp only [Function.update_same, Function.update_idem, hc₂, Option.some.injEq, Net.mk.injEq]
      exact ⟨Function.update_comm hne.symm _ _ _, trivial⟩
    · refine ⟨_, step_recv (hp hne.symm hp₂)
        (by dsimp only; rw [Function.update_noteq (Ne.symm hc)]; exact hc₂),
        (step_send (hp hne hp₁)).trans ?_⟩
      simp only [Function.update_noteq hc, Option.some.injEq, Net.mk.injEq]
      exact ⟨Function.update_comm hne.symm _ _ _, Function.update_comm (Ne.symm hc) _ _ _⟩
  · by_cases hc : (w₂, d₂) = (c₁, w₁)
    · obtain ⟨rfl, rfl⟩ := Prod.mk.inj_iff.1 hc
      refine ⟨_, step_send (hp hne.symm hp₂), (step_recv (hp hne hp₁)
        (show _ = m₁ :: (r₁ ++ [m₂]) by simp [hc₁])).trans ?_⟩
      simp only [Function.update_same, Function.update_idem, hc₁, Option.some.injEq, Net.mk.injEq]
      exact ⟨Function.update_comm hne.symm _ _ _, trivial⟩
    · refine ⟨_, step_send (hp hne.symm hp₂), (step_recv (hp hne hp₁)
        (by dsimp only; rw [Function.update_noteq (Ne.symm hc)]; exact hc₁)).trans ?_⟩
      simp only [Function.update_noteq hc, Option.some.injEq, Net.mk.injEq]
      exact ⟨Function.update_comm hne.symm _ _ _, Function.update_comm hc _ _ _⟩
  · have hc : (c₁, w₁) ≠ (c₂, w₂) := fun h => hne (Prod.mk.inj_iff.1 h).2
    refine ⟨_, step_recv (hp hne.symm hp₂)
      (by dsimp only; rw [Function.update_noteq hc.symm]; exact hc₂),
      (step_recv (hp hne hp₁) (by dsimp only; rw [Function.update_noteq hc]; exact hc₁)).trans ?_⟩
    simp only [Option.some.injEq, Net.mk.injEq]
    exact ⟨Function.update_comm hne.symm _ _ _, Function.update_comm hc.symm _ _ _⟩

/-- A step taken before a run that ends where no worker can step is absorbed by the run:
from after the step the same state is reached, one step sooner. -/
theorem run_of_step {s s₁ F : Net M α} {w : ℕ} {ws : List ℕ} (hF : F.Terminal)
    (h : s.step w = some s₁) (hrun : s.run ws = some F) :
    ∃ ws', s₁.run ws' = some F ∧ ws'.length + 1 = ws.length := by
  induction ws generalizing s s₁ with
  | nil =>
    obtain rfl : s = F := Option.some.inj hrun
    simp [hF w] at h
  | cons v ws ih =>
    rw [run_cons] at hrun
    obtain ⟨s₂, h₂, hrun⟩ := Option.bind_eq_some.1 hrun
    by_cases hv : w = v
    · subst hv
      obtain rfl : s₁ = s₂ := Option.some.inj (h.symm.trans h₂)
      exact ⟨ws, hrun, rfl⟩
    · obtain ⟨t, h₁t, h₂t⟩ := step_comm hv h h₂
      obtain ⟨ws', hws', hlen⟩ := ih h₂t hrun
      exact ⟨v :: ws', by rw [run_cons, h₁t]; exact hws', by simp [hlen]⟩

/-- Kahn determinacy: when one schedule takes the network to a state where no worker can
step, every run of the network can be completed to that state, and the steps taken and
still to take add up to that schedule's length. -/
theorem run_complete {s s' F : Net M α} {sched ws : List ℕ} (hF : F.Terminal)
    (hsched : s.run sched = some F) (h : s.run ws = some s') :
    ∃ ws', s'.run ws' = some F ∧ ws.length + ws'.length = sched.length := by
  induction ws generalizing s sched with
  | nil => exact ⟨sched, Option.some.inj h ▸ hsched, by simp⟩
  | cons w ws ih =>
    rw [run_cons] at h
    obtain ⟨s₁, h₁, h⟩ := Option.bind_eq_some.1 h
    obtain ⟨sched', hs', hlen⟩ := run_of_step hF h₁ hsched
    obtain ⟨ws', hws', hlen'⟩ := ih hs' h
    exact ⟨ws', hws', by simp only [List.length_cons]; omega⟩

/-- A run that ends where no worker can step ends at the state of any other such run. -/
theorem eq_of_terminal {s s' F : Net M α} {sched ws : List ℕ} (hF : F.Terminal)
    (hsched : s.run sched = some F) (h : s.run ws = some s') (hs' : s'.Terminal) : s' = F := by
  obtain ⟨ws', hws', -⟩ := run_complete hF hsched h
  cases ws' with
  | nil => exact Option.some.inj hws'
  | cons w ws' => simp [run_cons, hs' w] at hws'

/-! ### Phases

Within a round of a protocol every worker sends its messages and then receives; the
lemmas below run one worker's send loop or receive loop, then those of a list of workers
one after another. -/

theorem run_replicate_succ (s : Net M α) (w n : ℕ) :
    s.run (List.replicate (n + 1) w) = (s.step w).bind fun s' => s'.run (List.replicate n w) := rfl

/-- One worker's send loop appends its message to the channel to each other index. -/
theorem run_sendOthers {s : Net M α} {w : ℕ} {m : M} {is : List ℕ} (his : is.Nodup)
    {p : Proc M α} (h : s.procs w = Proc.sendOthers w m is >>= fun _ => p) :
    ∃ n s', s.run (List.replicate n w) = some s' ∧ s'.procs = Function.update s.procs w p ∧
      ∀ c, s'.chans c = if c.1 = w ∧ c.2 ∈ is ∧ c.2 ≠ w then s.chans c ++ [m] else s.chans c := by
  induction is generalizing s with
  | nil =>
    refine ⟨0, s, rfl, Eq.symm ?_, fun c => by simp⟩
    rw [Function.update_eq_self_iff]
    exact h.symm
  | cons i is ih =>
    rw [List.nodup_cons] at his
    by_cases hi : i = w
    · subst hi
      simp only [Proc.sendOthers, if_pos rfl] at h
      obtain ⟨n, s', hrun, hp, hc⟩ := ih his.2 h
      refine ⟨n, s', hrun, hp, fun c => ?_⟩
      rw [hc]
      exact if_congr (by simp only [List.mem_cons]; tauto) rfl rfl
    · simp only [Proc.sendOthers, if_neg hi, Proc.send_bind] at h
      have h₁ : (Net.mk (Function.update s.procs w (Proc.sendOthers w m is >>= fun _ => p))
          (Function.update s.chans (w, i) (s.chans (w, i) ++ [m]))).procs w =
          Proc.sendOthers w m is >>= fun _ => p := Function.update_same _ _ _
      obtain ⟨n, s', hrun, hp, hc⟩ := ih his.2 h₁
      refine ⟨n + 1, s', by rw [run_replicate_succ, step_send h]; exact hrun,
        by rw [hp, Function.update_idem], fun c => ?_⟩
      rw [hc]
      by_cases hci : c = (w, i)
      · subst hci
        simp [his.1, hi]
      · have : ¬(c.1 = w ∧ c.2 = i) := fun h => hci (Prod.ext h.1 h.2)
        dsimp only
        rw [Function.update_noteq hci]
        exact if_congr (by simp only [List.mem_cons]; tauto) rfl rfl

/-- One worker's receive loop takes the head of the channel from each other index. -/
theorem run_recvFold {β γ : Type} {s : Net M α} {w : ℕ} {decode : M → Option β} {own : Option β}
    {f : γ → ℕ → β → γ} {is : List ℕ} (his : is.Nodup) {acc : γ} {k : γ → Proc M α}
    {vals : ℕ → β} (hch : ∀ i ∈ is, i ≠ w → ∃ m rest, s.chans (i, w) = m :: rest ∧
      decode m = some (vals i))
    (h : s.procs w = Proc.recvFold w decode own f is acc >>= k) :
    ∃ n s', s.run (List.replicate n w) = some s' ∧
      s'.procs = Function.update s.procs w (k (Proc.foldRecv w own f vals is acc)) ∧
      ∀ c, s'.chans c = if c.2 = w ∧ c.1 ∈ is ∧ c.1 ≠ w then (s.chans c).tail else s.chans c := by
  induction is generalizing s acc with
  | nil =>
    refine ⟨0, s, rfl, Eq.symm ?_, fun c => by simp⟩
    rw [Function.update_eq_self_iff]
    exact h.symm
  | cons i is ih =>
    rw [List.nodup_cons] at his
    by_cases hi : i = w
    · subst hi
      simp only [Proc.recvFold, if_pos rfl] at h
      obtain ⟨n, s', hrun, hp, hc⟩ := ih his.2 (fun j hj => hch j (List.mem_cons_of_mem _ hj)) h
      refine ⟨n, s', hrun, by simpa [Proc.foldRecv] using hp, fun c => ?_⟩
      rw [hc]
      exact if_congr (by simp only [List.mem_cons]; tauto) rfl rfl
    · obtain ⟨m, rest, hm, hdec⟩ := hch i (List.mem_cons_self _ _) hi
      simp only [Proc.recvFold, if_neg hi, Proc.bind_assoc] at h
      have h₁ : (Net.mk (Function.update s.procs w
          (Proc.recvFold w decode own f is (f acc i (vals i)) >>= k))
          (Function.update s.chans (i, w) rest)).procs w =
          Proc.recvFold w decode own f is (f acc i (vals i)) >>= k := Function.update_same _ _ _
      have hch₁ : ∀ j ∈ is, j ≠ w → ∃ m' r', (Net.mk (Function.update s.procs w
          (Proc.recvFold w decode own f is (f acc i (vals i)) >>= k))
          (Function.update s.chans (i, w) rest)).chans (j, w) = m' :: r' ∧
            decode m' = some (vals j) := fun j hj hjw => by
        have hji : (j, w) ≠ (i, w) := fun e => his.1 ((Prod.mk.inj_iff.1 e).1 ▸ hj)
        simpa [Function.update_noteq hji] using hch j (List.mem_cons_of_mem _ hj) hjw
      obtain ⟨n, s', hrun, hp, hc⟩ := ih his.2 hch₁ h₁
      refine ⟨n + 1, s', ?_, ?_, fun c => ?_⟩
      · rw [run_replicate_succ, step_recv h hm]
        simpa [Proc.recvAs, hdec] using hrun
      · rw [hp, Function.update_idem]
        simp [Proc.foldRecv, hi]
      · rw [hc]
        by_cases hci : c = (i, w)
        · subst hci
          simp [his.1, hm, hi]
        · have : ¬(c.1 = i ∧ c.2 = w) := fun h => hci (Prod.ext h.1 h.2)
          dsimp only
          rw [Function.update_noteq hci]
          exact if_congr (by simp only [List.mem_cons]; tauto) rfl rfl

/-- The send loops of a list of workers, one worker after another. -/
theorem run_sendOthers_all {s : Net M α} {ws : List ℕ} (hws : ws.Nodup) {msg : ℕ → M}
    {dsts : ℕ → List ℕ} (hd : ∀ w ∈ ws, (dsts w).Nodup) {p : ℕ → Proc M α}
    (h : ∀ w ∈ ws, s.procs w = Proc.sendOthers w (msg w) (dsts w) >>= fun _ => p w) :
    ∃ sched s', s.run sched = some s' ∧ (∀ w, s'.procs w = if w ∈ ws then p w else s.procs w) ∧
      ∀ c, s'.chans c =
        if c.1 ∈ ws ∧ c.2 ∈ dsts c.1 ∧ c.2 ≠ c.1 then s.chans c ++ [msg c.1] else s.chans c := by
  induction ws generalizing s with
  | nil => exact ⟨[], s, rfl, fun w => by simp, fun c => by simp⟩
  | cons w ws ih =>
    rw [List.nodup_cons] at hws
    obtain ⟨n, s₁, hrun₁, hp₁, hc₁⟩ :=
      run_sendOthers (hd w (List.mem_cons_self _ _)) (h w (List.mem_cons_self _ _))
    have h' : ∀ v ∈ ws, s₁.procs v = Proc.sendOthers v (msg v) (dsts v) >>= fun _ => p v :=
      fun v hv => by
        rw [hp₁, Function.update_noteq (by rintro rfl; exact hws.1 hv)]
        exact h v (List.mem_cons_of_mem _ hv)
    obtain ⟨sched, s', hrun, hp, hc⟩ := ih hws.2 (fun v hv => hd v (List.mem_cons_of_mem _ hv)) h'
    refine ⟨List.replicate n w ++ sched, s', run_trans hrun₁ hrun,
      fun v => ?_, fun c => ?_⟩
    · rw [hp, hp₁]
      by_cases hv : v = w
      · subst hv
        simp [hws.1]
      · simp [hv, Function.update_noteq hv]
    · rw [hc, hc₁]
      by_cases h1 : c.1 = w
      · simp [h1, hws.1]
      · simp [h1]

/-- The receive loops of a list of workers, one worker after another. -/
theorem run_recvFold_all {β γ : Type} {s : Net M α} {ws : List ℕ} (hws : ws.Nodup)
    {decode : M → Option β} {own : ℕ → Option β} {f : γ → ℕ → β → γ} {srcs : ℕ → List ℕ}
    (hsrc : ∀ w ∈ ws, (srcs w).Nodup) {acc : ℕ → γ} {k : ℕ → γ → Proc M α} {vals : ℕ → β}
    (hch : ∀ w ∈ ws, ∀ i ∈ srcs w, i ≠ w → ∃ m rest, s.chans (i, w) = m :: rest ∧
      decode m = some (vals i))
    (h : ∀ w ∈ ws, s.procs w = Proc.recvFold w decode (own w) f (srcs w) (acc w) >>= k w) :
    ∃ sched s', s.run sched = some s' ∧
      (∀ w, s'.procs w =
        if w ∈ ws then k w (Proc.foldRecv w (own w) f vals (srcs w) (acc w)) else s.procs w) ∧
      ∀ c, s'.chans c =
        if c.2 ∈ ws ∧ c.1 ∈ srcs c.2 ∧ c.1 ≠ c.2 then (s.chans c).tail else s.chans c := by
  induction ws generalizing s with
  | nil => exact ⟨[], s, rfl, fun w => by simp, fun c => by simp⟩
  | cons w ws ih =>
    rw [List.nodup_cons] at hws
    obtain ⟨n, s₁, hrun₁, hp₁, hc₁⟩ := run_recvFold (hsrc w (List.mem_cons_self _ _))
      (hch w (List.mem_cons_self _ _)) (h w (List.mem_cons_self _ _))
    have h' : ∀ v ∈ ws, s₁.procs v = Proc.recvFold v decode (own v) f (srcs v) (acc v) >>= k v :=
      fun v hv => by
        rw [hp₁, Function.update_noteq (by rintro rfl; exact hws.1 hv)]
        exact h v (List.mem_cons_of_mem _ hv)
    have hch' : ∀ v ∈ ws, ∀ i ∈ srcs v, i ≠ v → ∃ m rest, s₁.chans (i, v) = m :: rest ∧
        decode m = some (vals i) := fun v hv i hi hiv => by
      have hvw : v ≠ w := fun e => hws.1 (e ▸ hv)
      rw [hc₁, if_neg (fun hc => hvw hc.1)]
      exact hch v (List.mem_cons_of_mem _ hv) i hi hiv
    obtain ⟨sched, s', hrun, hp, hc⟩ :=
      ih hws.2 (fun v hv => hsrc v (List.mem_cons_of_mem _ hv)) hch' h'
    refine ⟨List.replicate n w ++ sched, s', run_trans hrun₁ hrun,
      fun v => ?_, fun c => ?_⟩
    · rw [hp, hp₁]
      by_cases hv : v = w
      · subst hv
        simp [hws.1]
      · simp [hv, Function.update_noteq hv]
    · rw [hc, hc₁]
      by_cases h1 : c.2 = w
      · simp [h1, hws.1]
      · simp [h1]

/-! ### Collectives

The three communication patterns of a quickselect round, each from and back to a network
whose channels are all empty. -/

section Collectives

variable {β γ : Type} {W : ℕ} {s : Net M α}

theorem ite_tail_eq_nil {p q : Prop} [Decidable p] [Decidable q] (h : q → p) (x : M) :
    (if p then (if q then [x] else []).tail else if q then [x] else []) = [] := by
  by_cases hq : q <;> simp [hq, h]

/-- Every worker sends its value to every other worker and folds all values in index
order: afterwards every worker holds the same fold. -/
theorem run_exchange {msg : ℕ → M} {decode : M → Option β} {vals : ℕ → β}
    (hdec : ∀ i < W, decode (msg i) = some (vals i)) {f : γ → ℕ → β → γ} {acc : γ}
    {g : ℕ → γ → Proc M α} (hc : ∀ c, s.chans c = [])
    (h : ∀ w < W, s.procs w = (Proc.sendOthers w (msg w) (List.range W) >>= fun _ =>
      Proc.recvFold w decode (some (vals w)) f (List.range W) acc) >>= g w) :
    ∃ sched s', s.run sched = some s' ∧ (∀ c, s'.chans c = []) ∧
      (∀ w, W ≤ w → s'.procs w = s.procs w) ∧
      ∀ w < W, s'.procs w = g w ((List.range W).foldl (fun a i => f a i (vals i)) acc) := by
  have h₀ : ∀ w ∈ List.range W, s.procs w = Proc.sendOthers w (msg w) (List.range W) >>= fun _ =>
      Proc.recvFold w decode (some (vals w)) f (List.range W) acc >>= g w :=
    fun w hw => by rw [h w (List.mem_range.1 hw), Proc.bind_assoc]
  obtain ⟨sched₁, s₁, hrun₁, hp₁, hc₁⟩ :=
    run_sendOthers_all (List.nodup_range W) (fun _ _ => List.nodup_range W) h₀
  have h₁ : ∀ w ∈ List.range W, s₁.procs w =
      Proc.recvFold w decode (some (vals w)) f (List.range W) acc >>= g w :=
    fun w hw => by rw [hp₁, if_pos hw]
  have hch : ∀ w ∈ List.range W, ∀ i ∈ List.range W, i ≠ w → ∃ m rest,
      s₁.chans (i, w) = m :: rest ∧ decode m = some (vals i) := fun w hw i hi hiw =>
    ⟨msg i, [], by simp [hc₁, hc, List.mem_range.1 hw, List.mem_range.1 hi, Ne.symm hiw],
      hdec i (List.mem_range.1 hi)⟩
  obtain ⟨sched₂, s₂, hrun₂, hp₂, hc₂⟩ :=
    run_recvFold_all (List.nodup_range W) (fun _ _ => List.nodup_range W) hch h₁
  refine ⟨sched₁ ++ sched₂, s₂, run_trans hrun₁ hrun₂, fun c => ?_,
    fun w hw => ?_, fun w hw => ?_⟩
  · rw [hc₂, hc₁]
    simp only [hc, List.nil_append]
    exact ite_tail_eq_nil (fun hB => by simp only [List.mem_range] at hB ⊢; omega) _
  · rw [hp₂, hp₁, if_neg (by simpa using hw), if_neg (by simpa using hw)]
  · rw [hp₂, if_pos (List.mem_range.2 hw), Proc.foldRecv_own]

/-- The root sends one value to every other worker, which each receive it. -/
theorem run_bcast {root : ℕ} (hroot : root < W) {m : M} {decode : M → Option β} {v : β}
    (hdec : decode m = some v) {g : ℕ → β → Proc M α} (hc : ∀ c, s.chans c = [])
    (hr : s.procs root = Proc.sendOthers root m (List.range W) >>= fun _ => g root v)
    (h : ∀ w < W, w ≠ root → s.procs w = Proc.recvAs root decode >>= g w) :
    ∃ sched s', s.run sched = some s' ∧ (∀ c, s'.chans c = []) ∧
      (∀ w, W ≤ w → s'.procs w = s.procs w) ∧ ∀ w < W, s'.procs w = g w v := by
  have h₀ : ∀ w ∈ [root], s.procs w = Proc.sendOthers w m (List.range W) >>= fun _ => g w v :=
    fun w hw => by obtain rfl := List.mem_singleton.1 hw; exact hr
  obtain ⟨sched₁, s₁, hrun₁, hp₁, hc₁⟩ :=
    run_sendOthers_all (List.nodup_singleton root) (fun _ _ => List.nodup_range W) h₀
  have h₁ : ∀ w ∈ (List.range W).filter (· ≠ root), s₁.procs w =
      Proc.recvFold w decode none (fun _ _ b => b) [root] v >>= g w := fun w hw => by
    simp only [List.mem_filter, List.mem_range, decide_eq_true_eq] at hw
    rw [hp₁, if_neg (by simpa using hw.2), Proc.recvFold_single (Ne.symm hw.2), h w hw.1 hw.2]
  have hch : ∀ w ∈ (List.range W).filter (· ≠ root), ∀ i ∈ [root], i ≠ w → ∃ m' rest,
      s₁.chans (i, w) = m' :: rest ∧ decode m' = some v := fun w hw i hi _ => by
    simp only [List.mem_filter, List.mem_range, decide_eq_true_eq] at hw
    rw [List.mem_singleton.1 hi]
    exact ⟨m, [], by simp [hc₁, hc, hw.1, Ne.symm hw.2, hw.2], hdec⟩
  obtain ⟨sched₂, s₂, hrun₂, hp₂, hc₂⟩ := run_recvFold_all ((List.nodup_range W).filter _)
    (fun _ _ => List.nodup_singleton _) hch h₁
  refine ⟨sched₁ ++ sched₂, s₂, run_trans hrun₁ hrun₂, fun c => ?_,
    fun w hw => ?_, fun w hw => ?_⟩
  · rw [hc₂, hc₁]
    simp only [hc, List.nil_append]
    exact ite_tail_eq_nil (fun hB => by
      simp only [List.mem_range, List.mem_singleton, List.mem_filter, decide_eq_true_eq] at hB ⊢
      omega) _
  · rw [hp₂, hp₁]
    simp [show ¬w < W by omega, show w ≠ root by omega]
  · rw [hp₂, hp₁]
    by_cases hw' : w = root
    · subst hw'; simp
    · simp [hw, hw', Proc.foldRecv]

/-- Every other worker sends its value to the root, which folds them in index order. -/
theorem run_gather {root : ℕ} (hroot : root < W) {msg : ℕ → M} {decode : M → Option β}
    {vals : ℕ → β} (hdec : ∀ i < W, i ≠ root → decode (msg i) = some (vals i))
    {f : γ → ℕ → β → γ} {acc : γ} {gr : γ → Proc M α} {g : ℕ → Proc M α}
    (hc : ∀ c, s.chans c = [])
    (hr : s.procs root = Proc.recvFold root decode none f (List.range W) acc >>= gr)
    (h : ∀ w < W, w ≠ root → s.procs w = .send root (msg w) (g w)) :
    ∃ sched s', s.run sched = some s' ∧ (∀ c, s'.chans c = []) ∧
      (∀ w, W ≤ w → s'.procs w = s.procs w) ∧
      s'.procs root = gr (Proc.foldRecv root none f vals (List.range W) acc) ∧
      ∀ w < W, w ≠ root → s'.procs w = g w := by
  have h₀ : ∀ w ∈ (List.range W).filter (· ≠ root), s.procs w =
      Proc.sendOthers w (msg w) [root] >>= fun _ => g w := fun w hw => by
    simp only [List.mem_filter, List.mem_range, decide_eq_true_eq] at hw
    rw [Proc.sendOthers_single (Ne.symm hw.2), h w hw.1 hw.2]
  obtain ⟨sched₁, s₁, hrun₁, hp₁, hc₁⟩ := run_sendOthers_all ((List.nodup_range W).filter _)
    (fun _ _ => List.nodup_singleton root) h₀
  have h₁ : ∀ w ∈ [root], s₁.procs w = Proc.recvFold w decode none f (List.range W) acc >>= gr :=
    fun w hw => by
      obtain rfl := List.mem_singleton.1 hw
      rw [hp₁, if_neg (by simp), hr]
  have hch : ∀ w ∈ [root], ∀ i ∈ List.range W, i ≠ w → ∃ m rest,
      s₁.chans (i, w) = m :: rest ∧ decode m = some (vals i) := fun w hw i hi hiw => by
    obtain rfl := List.mem_singleton.1 hw
    exact ⟨msg i, [], by simp [hc₁, hc, List.mem_range.1 hi, hiw, Ne.symm hiw],
      hdec i (List.mem_range.1 hi) hiw⟩
  obtain ⟨sched₂, s₂, hrun₂, hp₂, hc₂⟩ := run_recvFold_all (List.nodup_singleton root)
    (fun _ _ => List.nodup_range W) hch h₁
  refine ⟨sched₁ ++ sched₂, s₂, run_trans hrun₁ hrun₂, fun c => ?_,
    fun w hw => ?_, by rw [hp₂]; simp, fun w hw hwr => ?_⟩
  · rw [hc₂, hc₁]
    simp only [hc, List.nil_append]
    exact ite_tail_eq_nil (fun hB => by
      simp only [List.mem_range, List.mem_singleton, List.mem_filter, decide_eq_true_eq] at hB ⊢
      omega) _
  · rw [hp₂, hp₁]
    simp [show ¬w < W by omega, show w ≠ root by omega]
  · rw [hp₂, hp₁]
    simp [hw, hwr]

end Collectives

end Net

end DistributedSgxSort
