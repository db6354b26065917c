import DistributedSgxSort.SamplePartitionInv

/-! Runs of the sample-partition request loop: from every reachable state some step is
possible until every worker has left the loop, every step lowers a potential that starts at
`W (W + 1) + 2 N`, and when every worker has left the loop each holds exactly the records
of the slices bound for it. -/
namespace DistributedSgxSort

section Potential

variable (W N : ℕ) (inp : PartInput)

/-- What is left to do on worker `w`: starting, its outstanding requests, the records it
still misses, and the records it has not sent yet. -/
def workerPotential (w : ℕ) (st : PartWorker) : ℕ :=
  (if st.started then 0 else W + 1) + liveCount W st.requests +
    (srcLocalLength N W w - st.numReceived) + ∑ i ∈ Finset.range W, (splitEnd W inp w i - st.scan i)

/-- What is left to do on all workers. -/
def partPotential (s : PartNet) : ℕ := ∑ w ∈ Finset.range W, workerPotential W N inp w (s.workers w)

end Potential

section Run

variable {W N : ℕ} {inp : PartInput} {s : PartNet}

theorem partPotential_set_lt {w : ℕ} (hw : w < W) {st : PartWorker} (c : ℕ × ℕ → List (List Elem))
    (h : workerPotential W N inp w st < workerPotential W N inp w (s.workers w)) :
    partPotential W N inp (s.set w st c) < partPotential W N inp s := by
  refine Finset.sum_lt_sum (fun v _ => ?_) ⟨w, Finset.mem_range.2 hw, by rwa [set_workers_self]⟩
  rcases eq_or_ne v w with rfl | hv
  · rw [set_workers_self]; exact h.le
  · rw [set_workers_of_ne hv]

/-- Starting a worker lowers the potential: it gives up `W + 1` and posts at most `W`
requests, and its cursors only move forward. -/
theorem PartInv.potential_start (h : SplitsOk W N inp) (hs : PartInv W N inp s) {w : ℕ} (hw : w < W)
    (hidle : (s.workers w).started = false) :
    partPotential W N inp (startWorker W N inp w s) < partPotential W N inp s := by
  have hinit := hs.idle w hidle
  obtain ⟨⟨hst, hnum, -⟩, -, -, -, hge, -⟩ := initInv_foldl h hs hw le_rfl
  rw [startWorker_eq hinit]
  refine partPotential_set_lt hw _ ?_
  have hscan : ∑ i ∈ Finset.range W, (splitEnd W inp w i -
      ((List.range W).foldl (initSlot W N inp w) (startState W inp w, s.chans)).1.scan i) ≤
      ∑ i ∈ Finset.range W, (splitEnd W inp w i - splitStart inp w i) := by
    refine Finset.sum_le_sum fun i hi => ?_
    have hle := hge i
    have h0 : splitStart inp w i ≤ (startState W inp w).scan i := by
      rcases eq_or_ne i w with rfl | hiw
      · simpa [startState] using h.start_le_end hw (Finset.mem_range.1 hi)
      · simp [startState, Function.update_noteq hiw]
    omega
  have := liveCount_le (W := W)
    ((List.range W).foldl (initSlot W N inp w) (startState W inp w, s.chans)).1.requests
  simp only [workerPotential, hst, hinit, initialWorker, ite_true, Bool.false_eq_true, ite_false,
    liveCount, Req.live_null, Finset.sum_const_zero] at this hscan ⊢
  omega

theorem PartInv.potential_sendDone (hs : PartInv W N inp s) {w i : ℕ} {s' : PartNet}
    (hc : sendDone W inp w i s = some s') : partPotential W N inp s' < partPotential W N inp s := by
  dsimp only [sendDone] at hc
  split_ifs at hc with hg hpos
  · obtain ⟨hst, -, hi, hiw, hsend⟩ := hg
    cases hc
    refine partPotential_set_lt (hs.started_lt w hst) _ ?_
    have hlive := liveCount_update (s.workers w).requests hi
      (.send (min (splitEnd W inp w i - (s.workers w).scan i) samplePartitionBufSize))
    rw [Req.live_of_isSend hsend, Req.live_send] at hlive
    have hsum : ∑ j ∈ Finset.range W, (splitEnd W inp w j -
        (postSend W inp w i (s.workers w) s.chans).1.scan j) <
        ∑ j ∈ Finset.range W, (splitEnd W inp w j - (s.workers w).scan j) := by
      refine Finset.sum_lt_sum (fun j _ => ?_) ⟨i, Finset.mem_range.2 hi, ?_⟩
      · rcases eq_or_ne j i with rfl | hji
        · simp only [postSend_scan, Function.update_same]; omega
        · simp [Function.update_noteq hji]
      · simp only [postSend_scan, Function.update_same, samplePartitionBufSize]; omega
    simp only [workerPotential, postSend_started, postSend_numReceived, postSend_requests] at hsum ⊢
    omega
  · obtain ⟨hst, -, hi, hiw, hsend⟩ := hg
    cases hc
    refine partPotential_set_lt (hs.started_lt w hst) _ ?_
    have hlive := liveCount_update (s.workers w).requests hi .null
    rw [Req.live_of_isSend hsend, Req.live_null] at hlive
    simp only [workerPotential, dropReq_started, dropReq_numReceived, dropReq_requests,
      dropReq_scan]
    omega

theorem PartInv.potential_recvDone (h : SplitsOk W N inp) (hs : PartInv W N inp s) {w src : ℕ}
    {s' : PartNet} (hc : recvDone W N w src s = some s') :
    partPotential W N inp s' < partPotential W N inp s := by
  dsimp only [recvDone] at hc
  split at hc
  · rename_i n m rest hreq hch
    split_ifs at hc with hg
    obtain ⟨hst, -, -, -⟩ := hg
    have hw := hs.started_lt w hst
    cases hc
    refine partPotential_set_lt hw _ ?_
    have hm := hch ▸ List.mem_cons_self m rest
    have hmiss := hs.chunk_le_missing h hw hm
    have hpos := (hs.chans.1 _ m hm).1
    have hlive := liveCount_update (s.workers w).requests hw
      (if (s.workers w).numReceived + m.length < srcLocalLength N W w then
        .recv (min (srcLocalLength N W w - ((s.workers w).numReceived + m.length))
          samplePartitionBufSize) else .null)
    rw [hreq, Req.live_recv] at hlive
    have hx : (if (s.workers w).numReceived + m.length < srcLocalLength N W w then
        Req.recv (min (srcLocalLength N W w - ((s.workers w).numReceived + m.length))
          samplePartitionBufSize) else Req.null).live ≤ 1 := by split_ifs <;> simp
    simp only [workerPotential, postRecv_started, postRecv_numReceived, postRecv_scan,
      postRecv_requests]
    omega
  · cases hc

/-- Every step lowers the potential. -/
theorem PartInv.potential_lt (h : SplitsOk W N inp) (hs : PartInv W N inp s) {c : PartChoice}
    {s' : PartNet} (hc : partStep W N inp s c = some s') :
    partPotential W N inp s' < partPotential W N inp s := by
  cases c with
  | start w =>
    simp only [partStep] at hc
    split_ifs at hc with hg
    cases hc
    exact hs.potential_start h hg.1 hg.2
  | sendDone w i => exact hs.potential_sendDone hc
  | recvDone w src => exact hs.potential_recvDone h hc

/-- A run from a state of the invariant takes at most as many steps as its potential. -/
theorem PartInv.run_length_le (h : SplitsOk W N inp) (hs : PartInv W N inp s) {cs : List PartChoice}
    {s' : PartNet} (hrun : partRun W N inp s cs = some s') :
    cs.length + partPotential W N inp s' ≤ partPotential W N inp s := by
  induction cs generalizing s with
  | nil => obtain rfl := Option.some.inj hrun; simp
  | cons c cs ih =>
    obtain ⟨s₁, h₁, hrun⟩ := Option.bind_eq_some.1 hrun
    have := ih (hs.step h h₁) hrun
    have := hs.potential_lt h h₁
    simp only [List.length_cons]
    omega

/-- The potential of the initial state: `W + 1` per worker to start, `N` records to
receive and `N` records to send. -/
theorem partPotential_init (h : SplitsOk W N inp) :
    partPotential W N inp (partInit W inp) = W * (W + 1) + 2 * N := by
  have hslices : ∑ w ∈ Finset.range W, ∑ i ∈ Finset.range W,
      (splitEnd W inp w i - splitStart inp w i) = N := by
    rw [Finset.sum_comm]
    calc ∑ i ∈ Finset.range W, ∑ w ∈ Finset.range W, (splitEnd W inp w i - splitStart inp w i)
        = ∑ i ∈ Finset.range W, srcLocalLength N W i :=
          Finset.sum_congr rfl fun i hi => by
            simpa [slice] using h.sum_slice_length (Finset.mem_range.1 hi)
      _ = N := by
        rcases Nat.eq_zero_or_pos W with rfl | hW
        · simpa using h.sum_length
        · exact sum_srcLocalLength hW
  have hrecv : ∑ w ∈ Finset.range W, srcLocalLength N W w = N := by
    rcases Nat.eq_zero_or_pos W with rfl | hW
    · simpa using h.sum_length
    · exact sum_srcLocalLength hW
  simp only [partPotential, workerPotential, partInit, initialWorker, Bool.false_eq_true,
    ite_false, liveCount, Req.live_null, Finset.sum_const_zero, Nat.sub_zero, Finset.sum_add_distrib,
    hrecv, hslices, Finset.sum_const, Finset.card_range, Nat.nsmul_eq_mul, Nat.mul_succ]
  omega

/-- A slice part not sent yet can always move: its sender starts, or its outstanding send to
that peer completes. -/
theorem PartInv.exists_step_of_unsent (hs : PartInv W N inp s) {v r : ℕ} (hv : v < W) (hr : r < W)
    (hlt : (s.workers v).scan r < splitEnd W inp v r) : ∃ c, (partStep W N inp s c).isSome := by
  by_cases hst : (s.workers v).started = true
  · have hrv : r ≠ v := by
      rintro rfl
      rw [hs.own_scan r hst] at hlt
      exact lt_irrefl _ hlt
    rcases hs.peer_req v hst r hr hrv with hsend | ⟨-, heq⟩
    · have hlen : (s.workers v).requestsLen ≠ 0 := by
        have : ((s.workers v).requests r).live ≤ liveCount W (s.workers v).requests :=
          Finset.single_le_sum (f := fun i => ((s.workers v).requests i).live)
            (fun _ _ => Nat.zero_le _) (Finset.mem_range.2 hr)
        rw [Req.live_of_isSend hsend] at this
        rw [hs.len_eq v hst]
        omega
      exact ⟨.sendDone v r, by simp [partStep, sendDone, hst, hlen, hr, hrv, hsend]⟩
    · omega
  · exact ⟨.start v, by simp [partStep, hv, hst]⟩

/-- While a worker is in the request loop, or has not started, some step is possible: its
own outstanding send, or a chunk that its outstanding receive accepts, or a step that moves
a missing record towards it. -/
theorem PartInv.exists_step (h : SplitsOk W N inp) (hs : PartInv W N inp s) {w : ℕ} (hw : w < W)
    (hfin : ¬(s.workers w).Finished) : ∃ c, (partStep W N inp s c).isSome := by
  by_cases hst : (s.workers w).started = true
  · have hlen : (s.workers w).requestsLen ≠ 0 := fun h0 => hfin ⟨hst, h0⟩
    have hlive : liveCount W (s.workers w).requests ≠ 0 := hs.len_eq w hst ▸ hlen
    obtain ⟨i, hi, hlive⟩ := Finset.exists_ne_zero_of_sum_ne_zero hlive
    rcases eq_or_ne i w with rfl | hiw
    · have hown := hs.own_req i hst
      unfold OwnReqOk at hown
      split_ifs at hown with hlt
      · have hadd := hs.received_add h hw
        obtain ⟨v, hv, hne⟩ := Finset.exists_ne_zero_of_sum_ne_zero
          (show ∑ v ∈ Finset.range W, (inflight W inp s v i).length ≠ 0 by omega)
        cases hch : s.chans (v, i) with
        | cons m rest =>
          have hfit := hs.recv_fits h hw hown (hch ▸ List.mem_cons_self m rest)
          exact ⟨.recvDone i v, by
            simp [partStep, recvDone, hown, hch, hst, hlen, Finset.mem_range.1 hv, hfit]⟩
        | nil =>
          refine hs.exists_step_of_unsent (Finset.mem_range.1 hv) hw ?_
          simp only [inflight, hch, List.flatten_nil, List.nil_append, length_readRange] at hne
          omega
      · rw [hown] at hlive
        exact absurd rfl hlive
    · rcases hs.peer_req w hst i (Finset.mem_range.1 hi) hiw with hsend | ⟨hnull, -⟩
      · exact ⟨.sendDone w i, by
          simp [partStep, sendDone, hst, hlen, Finset.mem_range.1 hi, hiw, hsend]⟩
      · rw [hnull] at hlive
        exact absurd rfl hlive
  · exact ⟨.start w, by simp [partStep, hw, hst]⟩

/-- A worker that has left the request loop has received its share: exactly the records of
the slices bound for it. -/
theorem PartInv.finished (h : SplitsOk W N inp) (hs : PartInv W N inp s) {r : ℕ} (hr : r < W)
    (hfin : (s.workers r).Finished) :
    (s.workers r).numReceived = srcLocalLength N W r ∧
      ((s.workers r).out : Multiset Elem) = ∑ w ∈ Finset.range W, (slice W inp w r : Multiset Elem) := by
  obtain ⟨hst, hlen⟩ := hfin
  have hzero : liveCount W (s.workers r).requests = 0 := hs.len_eq r hst ▸ hlen
  have hnull := Finset.sum_eq_zero_iff.1 hzero r (Finset.mem_range.2 hr)
  have hown := hs.own_req r hst
  unfold OwnReqOk at hown
  have heq : (s.workers r).numReceived = srcLocalLength N W r := by
    refine le_antisymm (hs.numReceived_le h hr) (not_lt.1 fun hlt => ?_)
    rw [hown, if_pos hlt] at hnull
    exact absurd hnull (by simp)
  have hadd := hs.received_add h hr
  have hempty : ∀ w ∈ Finset.range W, inflight W inp s w r = [] := fun w hw =>
    List.eq_nil_of_length_eq_zero (Finset.sum_eq_zero_iff.1
      (show ∑ v ∈ Finset.range W, (inflight W inp s v r).length = 0 by omega) w hw)
  have hcons := hs.conserve r hr
  unfold Conserved at hcons
  rw [Finset.sum_eq_zero fun w hw => by rw [hempty w hw]; rfl, add_zero] at hcons
  exact ⟨heq, hcons⟩

end Run

/-- The request loop of `distributed_sample_partition` on `W` workers, for split points as
quickselect leaves them and for every order in which the transport completes the requests.
In every reachable state `requests_len` counts the outstanding requests, no cursor passes its
slice's end and no worker has received more than its share, every `irecv` is at least as
large as any chunk it can receive, and a worker still in the loop can always be moved. Every
run takes at most `W (W + 1) + 2 N` steps, and a worker that has left the loop holds its
share, as a multiset the records of the slices bound for it. -/
theorem sample_partition_loop {W N : ℕ} {inp : PartInput} (h : SplitsOk W N inp) :
    ∀ cs s, partRun W N inp (partInit W inp) cs = some s →
      (∀ r < W, (s.workers r).started = true →
        (s.workers r).requestsLen = liveCount W (s.workers r).requests) ∧
      (∀ r < W, (∀ i < W, (s.workers r).scan i ≤ splitEnd W inp r i) ∧
        (s.workers r).numReceived ≤ srcLocalLength N W r) ∧
      (∀ r < W, ∀ n, (s.workers r).requests r = .recv n → ∀ src, ∀ m ∈ s.chans (src, r),
        m.length ≤ n) ∧
      (∀ r < W, ¬(s.workers r).Finished → ∃ c, (partStep W N inp s c).isSome) ∧
      (∀ r < W, (s.workers r).Finished → (s.workers r).numReceived = srcLocalLength N W r ∧
        ((s.workers r).out : Multiset Elem) = ∑ w ∈ Finset.range W, (slice W inp w r : Multiset Elem)) ∧
      cs.length ≤ W * (W + 1) + 2 * N := by
  intro cs s hrun
  have hs := (partInv_init h).run h hrun
  have hlen := (partInv_init h).run_length_le h hrun
  rw [partPotential_init h] at hlen
  exact ⟨fun r _ => hs.len_eq r, fun r hr => ⟨hs.scan_le r hr, hs.numReceived_le h hr⟩,
    fun r hr _ hreq _ _ hm => hs.recv_fits h hr hreq hm, fun r hr => hs.exists_step h hr,
    fun r hr => hs.finished h hr, by omega⟩

/-- Two workers with two records each, split in the middle. -/
def twoWorkerSplit : PartInput := ⟨fun w p => ⟨10 * w + p, 0, 0⟩, fun _ => 2, fun _ _ => 1⟩

theorem sample_partition_loop_two_workers :
    SplitsOk 2 4 twoWorkerSplit ∧
    ∀ cs s, partRun 2 4 twoWorkerSplit (partInit 2 twoWorkerSplit) cs = some s →
      (∀ r < 2, (s.workers r).started = true →
        (s.workers r).requestsLen = liveCount 2 (s.workers r).requests) ∧
      (∀ r < 2, (∀ i < 2, (s.workers r).scan i ≤ splitEnd 2 twoWorkerSplit r i) ∧
        (s.workers r).numReceived ≤ srcLocalLength 4 2 r) ∧
      (∀ r < 2, ∀ n, (s.workers r).requests r = .recv n → ∀ src, ∀ m ∈ s.chans (src, r),
        m.length ≤ n) ∧
      (∀ r < 2, ¬(s.workers r).Finished → ∃ c, (partStep 2 4 twoWorkerSplit s c).isSome) ∧
      (∀ r < 2, (s.workers r).Finished → (s.workers r).numReceived = srcLocalLength 4 2 r ∧
        ((s.workers r).out : Multiset Elem) =
          ∑ w ∈ Finset.range 2, (slice 2 twoWorkerSplit w r : Multiset Elem)) ∧
      cs.length ≤ 2 * (2 + 1) + 2 * 4 := by
  have h : SplitsOk 2 4 twoWorkerSplit := by
    refine ⟨fun _ _ _ hi => absurd hi (by omega), fun _ _ _ => (by decide : 1 ≤ 2),
      fun i hi => ?_, by decide⟩
    obtain rfl : i = 0 := by omega
    decide
  exact ⟨h, sample_partition_loop h⟩

end DistributedSgxSort
