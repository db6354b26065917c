import DistributedSgxSort.SamplePartition
import Mathlib.Algebra.Order.BigOperators.Group.Finset

/-! The invariant of the sample-partition request loop. Every record of every slice bound
for worker `r` is, at every moment, in exactly one place: in `r`'s `out`, queued on a
channel to `r`, or not yet sent. From it follow the bounds that keep the `size_t`
subtractions from wrapping, that every `irecv` is at least as large as the chunk it
receives, that the loop always has a request to wait on, and that it ends with every
worker holding its share. -/
namespace DistributedSgxSort

/-- What the request loop needs of quickselect's output: on each worker the split points
are non-decreasing and end within its records, the split points sum over the workers to the
targets `⌊(i + 1) N / W⌋`, and the workers hold `N` records together. -/
structure SplitsOk (W N : ℕ) (inp : PartInput) : Prop where
  mono : ∀ w < W, ∀ i, i + 1 < W - 1 → inp.sampleIdxs w i ≤ inp.sampleIdxs w (i + 1)
  le_length : ∀ w < W, 2 ≤ W → inp.sampleIdxs w (W - 2) ≤ inp.localLength w
  sum_eq : ∀ i < W - 1, ∑ w ∈ Finset.range W, inp.sampleIdxs w i = srcLocalStart N W (i + 1)
  sum_length : ∑ w ∈ Finset.range W, inp.localLength w = N

section Splits

variable {W N : ℕ} {inp : PartInput}

theorem SplitsOk.start_le_end (h : SplitsOk W N inp) {w i : ℕ} (hw : w < W) (hi : i < W) :
    splitStart inp w i ≤ splitEnd W inp w i := by
  unfold splitStart splitEnd
  split_ifs with h0 hl
  · exact Nat.zero_le _
  · exact Nat.zero_le _
  · have := h.le_length w hw (by omega)
    rwa [show W - 2 = i - 1 by omega] at this
  · have := h.mono w hw (i - 1) (by omega)
    rwa [show i - 1 + 1 = i by omega] at this

/-- The slices bound for worker `r` hold its share `src_local_length` together. -/
theorem SplitsOk.sum_slice_length (h : SplitsOk W N inp) {r : ℕ} (hr : r < W) :
    ∑ w ∈ Finset.range W, (slice W inp w r).length = srcLocalLength N W r := by
  have hend : ∑ w ∈ Finset.range W, splitEnd W inp w r = srcLocalStart N W (r + 1) := by
    by_cases hl : r = W - 1
    · simp only [splitEnd, hl, ite_true, h.sum_length]
      rw [Nat.sub_add_cancel (by omega), srcLocalStart_last (by omega)]
    · simp only [splitEnd, hl, ite_false]
      exact h.sum_eq r (by omega)
  have hstart : ∑ w ∈ Finset.range W, splitStart inp w r = srcLocalStart N W r := by
    by_cases h0 : r = 0
    · simp [splitStart, h0, srcLocalStart]
    · simp only [splitStart, h0, ite_false]
      rw [h.sum_eq (r - 1) (by omega), Nat.sub_add_cancel (by omega)]
  simp only [slice, length_readRange]
  rw [Finset.sum_tsub_distrib _ fun w hw => h.start_le_end (Finset.mem_range.1 hw) hr, hend, hstart]
  rfl

end Splits

/-! ### Primitive operations -/

section Ops

variable {W N : ℕ} {inp : PartInput}

@[simp] theorem Req.live_send (n : ℕ) : (Req.send n).live = 1 := rfl
@[simp] theorem Req.live_recv (n : ℕ) : (Req.recv n).live = 1 := rfl
@[simp] theorem Req.live_null : Req.null.live = 0 := rfl

theorem liveCount_update (requests : ℕ → Req) {i : ℕ} (hi : i < W) (x : Req) :
    liveCount W (Function.update requests i x) + (requests i).live = liveCount W requests + x.live := by
  have hmem := Finset.mem_range.2 hi
  have hupd : ∀ j, (Function.update requests i x j).live =
      Function.update (fun k => (requests k).live) i x.live j :=
    Function.apply_update (fun _ => Req.live) requests i x
  unfold liveCount
  simp only [hupd, Finset.sum_update_of_mem hmem,
    Finset.sum_eq_add_sum_diff_singleton hmem fun k => (requests k).live]
  omega

theorem liveCount_le (requests : ℕ → Req) : liveCount W requests ≤ W := by
  have : ∀ j, (requests j).live ≤ 1 := fun j => by cases requests j <;> simp [Req.live]
  calc liveCount W requests ≤ ∑ _j ∈ Finset.range W, 1 := Finset.sum_le_sum fun j _ => this j
    _ = W := by simp

@[simp] theorem set_workers (s : PartNet) (w : ℕ) (st : PartWorker) (c : ℕ × ℕ → List (List Elem))
    (v : ℕ) : (s.set w st c).workers v = if v = w then st else s.workers v :=
  Function.update_apply _ _ _ _

theorem set_workers_self (s : PartNet) (w : ℕ) (st : PartWorker) (c : ℕ × ℕ → List (List Elem)) :
    (s.set w st c).workers w = st := Function.update_same _ _ _

theorem set_workers_of_ne {s : PartNet} {w v : ℕ} (h : v ≠ w) (st : PartWorker)
    (c : ℕ × ℕ → List (List Elem)) : (s.set w st c).workers v = s.workers v :=
  Function.update_noteq h _ _

@[simp] theorem set_chans (s : PartNet) (w : ℕ) (st : PartWorker) (c : ℕ × ℕ → List (List Elem)) :
    (s.set w st c).chans = c := rfl

section PostSend

variable (w i : ℕ) (st : PartWorker) (c : ℕ × ℕ → List (List Elem))

@[simp] theorem postSend_started : (postSend W inp w i st c).1.started = st.started := rfl
@[simp] theorem postSend_numReceived : (postSend W inp w i st c).1.numReceived = st.numReceived := rfl
@[simp] theorem postSend_out : (postSend W inp w i st c).1.out = st.out := rfl
@[simp] theorem postSend_requestsLen : (postSend W inp w i st c).1.requestsLen = st.requestsLen := rfl
@[simp] theorem postSend_scan : (postSend W inp w i st c).1.scan =
    Function.update st.scan i (st.scan i + min (splitEnd W inp w i - st.scan i) samplePartitionBufSize) :=
  rfl
@[simp] theorem postSend_requests : (postSend W inp w i st c).1.requests =
    Function.update st.requests i (.send (min (splitEnd W inp w i - st.scan i) samplePartitionBufSize)) :=
  rfl
@[simp] theorem postSend_chans : (postSend W inp w i st c).2 = Function.update c (w, i)
    (c (w, i) ++ [readRange (inp.arr w) (st.scan i)
      (min (splitEnd W inp w i - st.scan i) samplePartitionBufSize)]) :=
  rfl

end PostSend

section DropReq

variable (i : ℕ) (st : PartWorker)

@[simp] theorem dropReq_started : (dropReq i st).started = st.started := rfl
@[simp] theorem dropReq_numReceived : (dropReq i st).numReceived = st.numReceived := rfl
@[simp] theorem dropReq_out : (dropReq i st).out = st.out := rfl
@[simp] theorem dropReq_scan : (dropReq i st).scan = st.scan := rfl
@[simp] theorem dropReq_requests : (dropReq i st).requests = Function.update st.requests i .null := rfl
@[simp] theorem dropReq_requestsLen : (dropReq i st).requestsLen = st.requestsLen - 1 := rfl

end DropReq

section PostRecv

variable (w : ℕ) (st : PartWorker)

@[simp] theorem postRecv_started : (postRecv W N w st).started = st.started := by
  dsimp only [postRecv]; split_ifs <;> rfl
@[simp] theorem postRecv_numReceived : (postRecv W N w st).numReceived = st.numReceived := by
  dsimp only [postRecv]; split_ifs <;> rfl
@[simp] theorem postRecv_out : (postRecv W N w st).out = st.out := by
  dsimp only [postRecv]; split_ifs <;> rfl
@[simp] theorem postRecv_scan : (postRecv W N w st).scan = st.scan := by
  dsimp only [postRecv]; split_ifs <;> rfl

/-- The receive slot after `postRecv`: the next chunk's `irecv` while records are missing,
dropped once all have arrived. -/
theorem postRecv_requests :
    (postRecv W N w st).requests = Function.update st.requests w
      (if st.numReceived < srcLocalLength N W w then
        .recv (min (srcLocalLength N W w - st.numReceived) samplePartitionBufSize)
      else .null) := by
  dsimp only [postRecv]
  split_ifs with h1 h2 h2 <;> first | rfl | (simp [samplePartitionBufSize] at h1; omega)

theorem postRecv_requestsLen :
    (postRecv W N w st).requestsLen =
      if st.numReceived < srcLocalLength N W w then st.requestsLen else st.requestsLen - 1 := by
  dsimp only [postRecv]
  split_ifs with h1 h2 h2 <;> first | rfl | (simp [samplePartitionBufSize] at h1; omega)

end PostRecv

@[simp] theorem set_set (s : PartNet) (w : ℕ) (st st' : PartWorker) (c c' : ℕ × ℕ → List (List Elem)) :
    (s.set w st c).set w st' c' = s.set w st' c' := by
  simp [PartNet.set]

end Ops

/-! ### What each operation keeps -/

section Local

variable (W N : ℕ) (inp : PartInput)

/-- Worker `w`'s receive slot: an `irecv` of the next chunk while records are missing,
dropped once its share has arrived. -/
def OwnReqOk (w : ℕ) (st : PartWorker) : Prop :=
  st.requests w = if st.numReceived < srcLocalLength N W w then
    .recv (min (srcLocalLength N W w - st.numReceived) samplePartitionBufSize) else .null

/-- Worker `w`'s send slot for peer `i`: a send, or dropped once the slice is sent. -/
def PeerReqOk (w i : ℕ) (st : PartWorker) : Prop :=
  (st.requests i).isSend = true ∨ (st.requests i = .null ∧ st.scan i = splitEnd W inp w i)

/-- The records of worker `w`'s slice for `r` still on their way: the chunks queued on the
channel, then the part not yet sent. -/
def inflight (s : PartNet) (w r : ℕ) : List Elem :=
  (s.chans (w, r)).flatten ++
    readRange (inp.arr w) ((s.workers w).scan r) (splitEnd W inp w r - (s.workers w).scan r)

/-- Every chunk in flight is non-empty and fits a buffer, and only workers send. -/
def ChansOk (chans : ℕ × ℕ → List (List Elem)) : Prop :=
  (∀ c, ∀ m ∈ chans c, 0 < m.length ∧ m.length ≤ samplePartitionBufSize) ∧
    ∀ v r, chans (v, r) ≠ [] → v < W

/-- Every record of the slices bound for `r` is in `r`'s `out` or on its way there. -/
def Conserved (s : PartNet) (r : ℕ) : Prop :=
  ((s.workers r).out : Multiset Elem) + ∑ w ∈ Finset.range W, (inflight W inp s w r : Multiset Elem) =
    ∑ w ∈ Finset.range W, (slice W inp w r : Multiset Elem)

/-- Worker `w` after copying its own slice to `out` and moving its own cursor to the
slice's end, before its first requests. -/
def startState (w : ℕ) : PartWorker :=
  { initialWorker W inp w with
    started := true
    numReceived := splitEnd W inp w w - splitStart inp w w
    out := slice W inp w w
    scan := Function.update (splitStart inp w) w (splitEnd W inp w w) }

/-- The loop that posts worker `w`'s initial requests, after slots `[0, k)`: the slots
done are in order, the others untouched, and no record has moved. -/
structure InitInv (s : PartNet) (w k : ℕ) (acc : PartWorker × (ℕ × ℕ → List (List Elem))) :
    Prop where
  same : acc.1.started = true ∧ acc.1.numReceived = (startState W inp w).numReceived ∧
    acc.1.out = (startState W inp w).out
  rest : ∀ j, k ≤ j → acc.1.requests j = .null ∧ acc.1.scan j = (startState W inp w).scan j
  len : acc.1.requestsLen = liveCount W acc.1.requests + (W - k)
  scan_le : ∀ j < W, acc.1.scan j ≤ splitEnd W inp w j
  scan_ge : ∀ j, (startState W inp w).scan j ≤ acc.1.scan j
  own_scan : acc.1.scan w = splitEnd W inp w w
  peer : ∀ j < k, j ≠ w → PeerReqOk W inp w j acc.1
  own : w < k → OwnReqOk W N w acc.1
  chans : ChansOk W acc.2
  inflight : ∀ v r, inflight W inp (s.set w acc.1 acc.2) v r =
    inflight W inp (s.set w (startState W inp w) s.chans) v r

end Local

section LocalFacts

variable {W N : ℕ} {inp : PartInput}

theorem PeerReqOk.postSend_self {w i : ℕ} {st : PartWorker} (c : ℕ × ℕ → List (List Elem)) :
    PeerReqOk W inp w i (postSend W inp w i st c).1 :=
  .inl (by simp [Req.isSend])

theorem PeerReqOk.postSend_ne {w i j : ℕ} {st : PartWorker} (c : ℕ × ℕ → List (List Elem))
    (hj : j ≠ i) (h : PeerReqOk W inp w j st) : PeerReqOk W inp w j (postSend W inp w i st c).1 := by
  simpa [PeerReqOk, Function.update_noteq hj] using h

theorem PeerReqOk.dropReq_self {w i : ℕ} {st : PartWorker} (h : st.scan i = splitEnd W inp w i) :
    PeerReqOk W inp w i (dropReq i st) :=
  .inr ⟨by simp, by simpa using h⟩

theorem PeerReqOk.dropReq_ne {w i j : ℕ} {st : PartWorker} (hj : j ≠ i) (h : PeerReqOk W inp w j st) :
    PeerReqOk W inp w j (dropReq i st) := by
  simpa [PeerReqOk, Function.update_noteq hj] using h

theorem PeerReqOk.postRecv {w j : ℕ} {st : PartWorker} (hj : j ≠ w) (h : PeerReqOk W inp w j st) :
    PeerReqOk W inp w j (postRecv W N w st) := by
  simpa [PeerReqOk, postRecv_requests, Function.update_noteq hj] using h

theorem OwnReqOk.postSend {w i : ℕ} {st : PartWorker} (c : ℕ × ℕ → List (List Elem)) (hi : i ≠ w)
    (h : OwnReqOk W N w st) : OwnReqOk W N w (postSend W inp w i st c).1 := by
  simpa [OwnReqOk, Function.update_noteq hi.symm] using h

theorem OwnReqOk.dropReq {w i : ℕ} {st : PartWorker} (hi : i ≠ w) (h : OwnReqOk W N w st) :
    OwnReqOk W N w (dropReq i st) := by
  simpa [OwnReqOk, Function.update_noteq hi.symm] using h

theorem ownReqOk_postRecv (w : ℕ) (st : PartWorker) : OwnReqOk W N w (postRecv W N w st) := by
  simp [OwnReqOk, postRecv_requests]

theorem postSend_scan_le {w i : ℕ} {st : PartWorker} (c : ℕ × ℕ → List (List Elem))
    (h : ∀ j < W, st.scan j ≤ splitEnd W inp w j) :
    ∀ j < W, (postSend W inp w i st c).1.scan j ≤ splitEnd W inp w j := by
  intro j hj
  have := h j hj
  by_cases hji : j = i
  · subst hji; simp; omega
  · simpa [Function.update_noteq hji] using this

theorem ChansOk.postSend {w i : ℕ} {st : PartWorker} {c : ℕ × ℕ → List (List Elem)}
    (hw : w < W) (hpos : st.scan i < splitEnd W inp w i) (h : ChansOk W c) :
    ChansOk W (postSend W inp w i st c).2 := by
  refine ⟨fun c' m hm => ?_, fun v r hvr => ?_⟩
  · simp only [postSend_chans, Function.update_apply] at hm
    split_ifs at hm with hc
    · rcases List.mem_append.1 hm with hm | hm
      · exact h.1 _ m hm
      · rw [List.mem_singleton.1 hm, length_readRange]
        simp only [samplePartitionBufSize] at *
        omega
    · exact h.1 c' m hm
  · simp only [postSend_chans, Function.update_apply] at hvr
    split_ifs at hvr with hc
    · exact (Prod.mk.inj_iff.1 hc).1 ▸ hw
    · exact h.2 v r hvr

/-- Posting a send moves a chunk from the unsent part of a slice to its channel. -/
theorem inflight_postSend (t : PartNet) {w i : ℕ}
    (hle : (t.workers w).scan i ≤ splitEnd W inp w i) (v r : ℕ) :
    inflight W inp (t.set w (postSend W inp w i (t.workers w) t.chans).1
      (postSend W inp w i (t.workers w) t.chans).2) v r = inflight W inp t v r := by
  unfold inflight
  by_cases hv : v = w
  · subst hv
    by_cases hr : r = i
    · subst hr
      simp only [set_workers, set_chans, ite_true, postSend_chans, postSend_scan,
        Function.update_same, List.flatten_append, List.flatten_singleton, List.append_assoc]
      generalize he : min (splitEnd W inp v r - (t.workers v).scan r) samplePartitionBufSize = e
      have : e ≤ splitEnd W inp v r - (t.workers v).scan r := he ▸ min_le_left _ _
      rw [show splitEnd W inp v r - (t.workers v).scan r =
        e + (splitEnd W inp v r - ((t.workers v).scan r + e)) by omega, readRange_add]
    · have hc : (v, r) ≠ (v, i) := fun h => hr (Prod.mk.inj_iff.1 h).2
      simp [Function.update_noteq hc, Function.update_noteq hr]
  · have hc : (v, r) ≠ (w, i) := fun h => hv (Prod.mk.inj_iff.1 h).1
    simp [Function.update_noteq hc, hv]

/-- A worker update that keeps the scan cursors changes the records in flight only through
the channels. -/
theorem inflight_set_of_scan {s : PartNet} {w : ℕ} {st : PartWorker} (c : ℕ × ℕ → List (List Elem))
    (hscan : st.scan = (s.workers w).scan) (v r : ℕ) :
    inflight W inp (s.set w st c) v r = (c (v, r)).flatten ++
      readRange (inp.arr v) ((s.workers v).scan r) (splitEnd W inp v r - (s.workers v).scan r) := by
  unfold inflight
  rcases eq_or_ne v w with rfl | hv
  · rw [set_workers_self, hscan]; rfl
  · rw [set_workers_of_ne hv]; rfl

theorem out_set_of_out {s : PartNet} {w : ℕ} {st : PartWorker} (c : ℕ × ℕ → List (List Elem))
    (hout : st.out = (s.workers w).out) (r : ℕ) : ((s.set w st c).workers r).out = (s.workers r).out := by
  rcases eq_or_ne r w with rfl | hr
  · rw [set_workers_self, hout]
  · rw [set_workers_of_ne hr]

theorem Req.live_of_isSend {x : Req} (h : x.isSend = true) : x.live = 1 := by
  cases x <;> simp_all [Req.isSend]

theorem inflight_set_congr {s : PartNet} {w : ℕ} {st st' : PartWorker} (c : ℕ × ℕ → List (List Elem))
    (hscan : st.scan = st'.scan) (v r : ℕ) :
    inflight W inp (s.set w st c) v r = inflight W inp (s.set w st' c) v r := by
  unfold inflight
  rcases eq_or_ne v w with rfl | hv
  · rw [set_workers_self, set_workers_self, hscan]; rfl
  · rw [set_workers_of_ne hv, set_workers_of_ne hv]; rfl

theorem sum_eq_add_sum_of_eq_add {M : Type*} [AddCommMonoid M] {t : Finset ℕ} {F G : ℕ → M} {i : ℕ}
    {a : M} (hi : i ∈ t) (h : F i = a + G i) (hne : ∀ j ∈ t, j ≠ i → F j = G j) :
    ∑ j ∈ t, F j = a + ∑ j ∈ t, G j := by
  rw [Finset.sum_eq_add_sum_diff_singleton hi, Finset.sum_eq_add_sum_diff_singleton hi G, h,
    add_assoc, Finset.sum_congr rfl fun j hj => hne j (Finset.mem_sdiff.1 hj).1
      (fun h' => (Finset.mem_sdiff.1 hj).2 (Finset.mem_singleton.2 h'))]

end LocalFacts

/-! ### The invariant -/

section Inv

variable (W N : ℕ) (inp : PartInput)

/-- The invariant of the request loop on all workers: a worker that has not started is as
it was, a started one has its receive slot and its send slots in order and counts its
outstanding requests in `requests_len`, and every record of every slice is in its
receiver's `out` or on its way there. -/
structure PartInv (s : PartNet) : Prop where
  idle : ∀ w, (s.workers w).started = false → s.workers w = initialWorker W inp w
  started_lt : ∀ w, (s.workers w).started = true → w < W
  scan_le : ∀ w < W, ∀ i < W, (s.workers w).scan i ≤ splitEnd W inp w i
  own_scan : ∀ w, (s.workers w).started = true → (s.workers w).scan w = splitEnd W inp w w
  len_eq : ∀ w, (s.workers w).started = true →
    (s.workers w).requestsLen = liveCount W (s.workers w).requests
  own_req : ∀ w, (s.workers w).started = true → OwnReqOk W N w (s.workers w)
  peer_req : ∀ w, (s.workers w).started = true → ∀ i < W, i ≠ w →
    PeerReqOk W inp w i (s.workers w)
  out_len : ∀ w, (s.workers w).out.length = (s.workers w).numReceived
  chans : ChansOk W s.chans
  conserve : ∀ r < W, Conserved W inp s r

end Inv

section InvFacts

variable {W N : ℕ} {inp : PartInput}

theorem partInv_init (h : SplitsOk W N inp) : PartInv W N inp (partInit W inp) where
  idle _ _ := rfl
  started_lt _ h := by cases h
  scan_le _ hw _ hi := h.start_le_end hw hi
  own_scan _ h := by cases h
  len_eq _ h := by cases h
  own_req _ h := by cases h
  peer_req _ h := by cases h
  out_len _ := rfl
  chans := ⟨fun _ _ hm => (List.not_mem_nil _ hm).elim, fun _ _ h => absurd rfl h⟩
  conserve _ _ := by simp [Conserved, partInit, inflight, slice, initialWorker]

/-- A step of worker `w` keeps the invariant when the worker's new state and the new
channels keep their parts of it. -/
theorem PartInv.set {s : PartNet} (hs : PartInv W N inp s) {w : ℕ} {st : PartWorker}
    {c : ℕ × ℕ → List (List Elem)} (hw : w < W) (hst : st.started = true)
    (hscan : ∀ i < W, st.scan i ≤ splitEnd W inp w i) (hown : st.scan w = splitEnd W inp w w)
    (hlen : st.requestsLen = liveCount W st.requests) (hreq : OwnReqOk W N w st)
    (hpeer : ∀ i < W, i ≠ w → PeerReqOk W inp w i st) (hout : st.out.length = st.numReceived)
    (hc : ChansOk W c)
    (hcons : ∀ r < W, Conserved W inp (s.set w st c) r) :
    PartInv W N inp (s.set w st c) := by
  refine ⟨fun v => ?_, fun v => ?_, fun v hv => ?_, fun v => ?_, fun v => ?_, fun v => ?_,
    fun v => ?_, fun v => ?_, hc, hcons⟩ <;>
  rcases eq_or_ne v w with rfl | hvw <;>
  first | rw [set_workers_self] | rw [set_workers_of_ne ‹_›]
  · simp [hst]
  · exact hs.idle v
  · exact fun _ => hw
  · exact hs.started_lt v
  · exact hscan
  · exact hs.scan_le v hv
  · exact fun _ => hown
  · exact hs.own_scan v
  · exact fun _ => hlen
  · exact hs.len_eq v
  · exact fun _ => hreq
  · exact hs.own_req v
  · exact fun _ => hpeer
  · exact hs.peer_req v
  · exact hout
  · exact hs.out_len v

/-- `mpi_tls_waitany` returning a send request keeps the invariant. -/
theorem PartInv.step_sendDone {s s' : PartNet} (hs : PartInv W N inp s) {w i : ℕ}
    (h : sendDone W inp w i s = some s') : PartInv W N inp s' := by
  dsimp only [sendDone] at h
  split_ifs at h with hg hpos
  · obtain ⟨hst, -, hi, hiw, hsend⟩ := hg
    have hw := hs.started_lt w hst
    have hle := hs.scan_le w hw i hi
    cases h
    refine hs.set hw (by simpa using hst) (postSend_scan_le _ (hs.scan_le w hw)) ?_ ?_
      (OwnReqOk.postSend _ hiw (hs.own_req w hst)) (fun j _ hjw => ?_) (by simpa using hs.out_len w)
      (ChansOk.postSend hw (by omega) hs.chans) fun r hr => ?_
    · simpa [Function.update_noteq (Ne.symm hiw)] using hs.own_scan w hst
    · have := liveCount_update (s.workers w).requests hi
        (.send (min (splitEnd W inp w i - (s.workers w).scan i) samplePartitionBufSize))
      rw [Req.live_of_isSend hsend, Req.live_send] at this
      simp only [postSend_requestsLen, postSend_requests, hs.len_eq w hst]
      omega
    · rcases eq_or_ne j i with rfl | hji
      · exact PeerReqOk.postSend_self _
      · exact PeerReqOk.postSend_ne _ hji (hs.peer_req w hst j ‹_› hjw)
    · rw [Conserved, out_set_of_out _ (postSend_out _ _ _ _) r, ← hs.conserve r hr]
      exact congrArg _ (Finset.sum_congr rfl fun v _ => by rw [inflight_postSend s hle])
  · obtain ⟨hst, -, hi, hiw, hsend⟩ := hg
    have hw := hs.started_lt w hst
    have hle := hs.scan_le w hw i hi
    cases h
    refine hs.set hw (by simpa using hst) (by simpa using hs.scan_le w hw)
      (by simpa using hs.own_scan w hst) ?_ (OwnReqOk.dropReq hiw (hs.own_req w hst))
      (fun j _ hjw => ?_) (by simpa using hs.out_len w) hs.chans fun r hr => ?_
    · have := liveCount_update (s.workers w).requests hi .null
      rw [Req.live_of_isSend hsend, Req.live_null] at this
      simp only [dropReq_requestsLen, dropReq_requests, hs.len_eq w hst]
      omega
    · rcases eq_or_ne j i with rfl | hji
      · exact PeerReqOk.dropReq_self (by omega)
      · exact PeerReqOk.dropReq_ne hji (hs.peer_req w hst j ‹_› hjw)
    · rw [Conserved, out_set_of_out _ (dropReq_out _ _) r, ← hs.conserve r hr]
      exact congrArg _ (Finset.sum_congr rfl fun v _ => by
        rw [inflight_set_of_scan _ (dropReq_scan _ _)]; rfl)

/-- A receive moves the head chunk of a channel to the end of its receiver's `out`. -/
theorem conserved_recv {s : PartNet} {w src r : ℕ} {st : PartWorker} {m : List Elem}
    {rest : List (List Elem)} (hch : s.chans (src, w) = m :: rest) (hsrc : src < W)
    (hout : st.out = (s.workers w).out ++ m) (hscan : st.scan = (s.workers w).scan)
    (hr : Conserved W inp s r) :
    Conserved W inp (s.set w st (Function.update s.chans (src, w) rest)) r := by
  have hinf : ∀ v, inflight W inp (s.set w st (Function.update s.chans (src, w) rest)) v r =
      (Function.update s.chans (src, w) rest (v, r)).flatten ++
        readRange (inp.arr v) ((s.workers v).scan r) (splitEnd W inp v r - (s.workers v).scan r) :=
    fun v => inflight_set_of_scan _ hscan v r
  unfold Conserved at hr ⊢
  rcases eq_or_ne r w with rfl | hrw
  · rw [set_workers_self, hout, ← hr, sum_eq_add_sum_of_eq_add (Finset.mem_range.2 hsrc)
      (F := fun v => (inflight W inp s v r : Multiset Elem)) (a := (m : Multiset Elem))
      (G := fun v => (inflight W inp (s.set r st (Function.update s.chans (src, r) rest)) v r :
        Multiset Elem)) ?_ ?_]
    · simp only [← Multiset.coe_add, add_assoc]
    · dsimp only
      rw [hinf, inflight, hch, Function.update_same]
      simp
    · intro v _ hv
      dsimp only
      rw [hinf, inflight, Function.update_noteq fun h => hv (Prod.mk.inj_iff.1 h).1]
  · rw [set_workers_of_ne hrw, ← hr]
    exact congrArg _ (Finset.sum_congr rfl fun v _ => by
      rw [hinf, inflight, Function.update_noteq fun h => hrw (Prod.mk.inj_iff.1 h).2])

/-- `mpi_tls_waitany` returning the receive request keeps the invariant: the chunk leaves its
channel for the receiver's `out`. -/
theorem PartInv.step_recvDone {s s' : PartNet} (hs : PartInv W N inp s) {w src : ℕ}
    (h : recvDone W N w src s = some s') : PartInv W N inp s' := by
  dsimp only [recvDone] at h
  split at h
  · rename_i n m rest hreq hch
    split_ifs at h with hg
    obtain ⟨hst, -, hsrc, -⟩ := hg
    have hw := hs.started_lt w hst
    cases h
    have hlive := liveCount_update (s.workers w).requests hw
      (if (s.workers w).numReceived + m.length < srcLocalLength N W w then
        .recv (min (srcLocalLength N W w - ((s.workers w).numReceived + m.length))
          samplePartitionBufSize) else .null)
    rw [hreq, Req.live_recv] at hlive
    refine hs.set hw (by simpa using hst) (by simpa using hs.scan_le w hw)
      (by simpa using hs.own_scan w hst) ?_ (ownReqOk_postRecv w _) (fun j hj hjw => ?_)
      (by simp [hs.out_len w]) ⟨fun c m' hm' => ?_, fun v r hvr => ?_⟩ fun r hr => ?_
    · rw [postRecv_requestsLen, postRecv_requests]
      dsimp only
      rw [hs.len_eq w hst]
      split_ifs at hlive ⊢ <;> simp only [Req.live_recv, Req.live_null] at hlive <;> omega
    · exact PeerReqOk.postRecv hjw (hs.peer_req w hst j hj hjw)
    · simp only [set_chans, Function.update_apply] at hm'
      split_ifs at hm' with hc
      · exact hs.chans.1 _ m' (hc ▸ hch ▸ List.mem_cons_of_mem _ hm')
      · exact hs.chans.1 c m' hm'
    · simp only [set_chans, Function.update_apply] at hvr
      split_ifs at hvr with hc
      · exact (Prod.mk.inj_iff.1 hc).1 ▸ hsrc
      · exact hs.chans.2 v r hvr
    · exact conserved_recv hch hsrc (by simp) (by simp) (hs.conserve r hr)
  · cases h

section Start

variable {s : PartNet} {w : ℕ}

theorem initInv_zero (h : SplitsOk W N inp) (hs : PartInv W N inp s) (hw : w < W) :
    InitInv W N inp s w 0 (startState W inp w, s.chans) where
  same := ⟨rfl, rfl, rfl⟩
  rest _ _ := ⟨rfl, rfl⟩
  len := by simp [startState, initialWorker, liveCount]
  scan_le j hj := by
    rcases eq_or_ne j w with rfl | hjw
    · simp [startState]
    · simpa [startState, Function.update_noteq hjw] using h.start_le_end hw hj
  scan_ge _ := le_rfl
  own_scan := by simp [startState]
  peer _ h := absurd h (Nat.not_lt_zero _)
  own h := absurd h (Nat.not_lt_zero _)
  chans := hs.chans
  inflight _ _ := rfl

/-- One slot of the initial-requests loop: the receive slot, a first chunk, or a dropped
slot. -/
theorem InitInv.step {k : ℕ} {acc : PartWorker × (ℕ × ℕ → List (List Elem))} (hw : w < W)
    (hk : k < W) (h : InitInv W N inp s w k acc) : InitInv W N inp s w (k + 1) (initSlot W N inp w acc k) := by
  obtain ⟨hnull, hscank⟩ := h.rest k le_rfl
  have hlive := fun x => liveCount_update acc.1.requests hk x
  rw [hnull, Req.live_null] at hlive
  unfold initSlot
  split_ifs with hkw hlt
  · subst hkw
    refine ⟨by simpa using h.same, fun j hj => ?_, ?_, by simpa using h.scan_le,
      by simpa using h.scan_ge, by simpa using h.own_scan,
      fun j hj hjw => PeerReqOk.postRecv hjw (h.peer j (by omega) hjw),
      fun _ => ownReqOk_postRecv _ _, h.chans, fun v r => ?_⟩
    · simpa [postRecv_requests, Function.update_noteq (show j ≠ k by omega)] using h.rest j (by omega)
    · have := hlive (if acc.1.numReceived < srcLocalLength N W k then
        .recv (min (srcLocalLength N W k - acc.1.numReceived) samplePartitionBufSize) else .null)
      rw [postRecv_requestsLen, postRecv_requests, h.len]
      split_ifs at this ⊢ <;> simp only [Req.live_recv, Req.live_null] at this <;> omega
    · rw [← h.inflight]; exact inflight_set_congr _ (postRecv_scan _ _) v r
  · have hne := h.scan_le k hk
    refine ⟨by simpa using h.same, fun j hj => ?_, ?_, postSend_scan_le _ h.scan_le,
      fun j => ?_, by simpa [Function.update_noteq (Ne.symm hkw)] using h.own_scan, fun j hj hjw => ?_,
      fun hwk => OwnReqOk.postSend _ hkw (h.own (by omega)), ChansOk.postSend hw hlt h.chans,
      fun v r => ?_⟩
    · have hjk : j ≠ k := by omega
      simpa [Function.update_noteq hjk] using h.rest j (by omega)
    · have := hlive (.send (min (splitEnd W inp w k - acc.1.scan k) samplePartitionBufSize))
      simp only [postSend_requestsLen, postSend_requests, h.len, Req.live_send] at this ⊢
      omega
    · have := h.scan_ge j
      rcases eq_or_ne j k with rfl | hjk
      · simp; omega
      · simpa [Function.update_noteq hjk] using this
    · rcases eq_or_ne j k with rfl | hjk
      · exact PeerReqOk.postSend_self _
      · exact PeerReqOk.postSend_ne _ hjk (h.peer j (by omega) hjw)
    · have := inflight_postSend (s.set w acc.1 acc.2) (i := k) (by rwa [set_workers_self]) v r
      simp only [set_workers_self, set_chans, set_set] at this
      rw [this, h.inflight]
  · have hne := h.scan_le k hk
    refine ⟨by simpa using h.same, fun j hj => ?_, ?_, by simpa using h.scan_le,
      by simpa using h.scan_ge, by simpa using h.own_scan, fun j hj hjw => ?_,
      fun hwk => OwnReqOk.dropReq hkw (h.own (by omega)), h.chans, fun v r => ?_⟩
    · have hjk : j ≠ k := by omega
      simpa [Function.update_noteq hjk] using h.rest j (by omega)
    · have := hlive .null
      simp only [dropReq_requestsLen, dropReq_requests, h.len, Req.live_null] at this ⊢
      omega
    · rcases eq_or_ne j k with rfl | hjk
      · exact PeerReqOk.dropReq_self (by omega)
      · exact PeerReqOk.dropReq_ne hjk (h.peer j (by omega) hjw)
    · rw [← h.inflight]; exact inflight_set_congr _ (dropReq_scan _ _) v r

theorem initInv_foldl (h : SplitsOk W N inp) (hs : PartInv W N inp s) (hw : w < W) {k : ℕ} (hk : k ≤ W) :
    InitInv W N inp s w k ((List.range k).foldl (initSlot W N inp w) (startState W inp w, s.chans)) := by
  induction k with
  | zero => exact initInv_zero h hs hw
  | succ k ih =>
    rw [List.range_succ, List.foldl_append, List.foldl_cons, List.foldl_nil]
    exact (ih (by omega)).step hw (by omega)

theorem startWorker_eq (hinit : s.workers w = initialWorker W inp w) :
    startWorker W N inp w s = s.set w
      ((List.range W).foldl (initSlot W N inp w) (startState W inp w, s.chans)).1
      ((List.range W).foldl (initSlot W N inp w) (startState W inp w, s.chans)).2 := by
  rw [startWorker, hinit]; rfl

/-- A worker starting keeps the invariant: its own slice moves from its array to its `out`. -/
theorem PartInv.step_start (h : SplitsOk W N inp) (hs : PartInv W N inp s) (hw : w < W)
    (hidle : (s.workers w).started = false) : PartInv W N inp (startWorker W N inp w s) := by
  have hinit := hs.idle w hidle
  obtain ⟨⟨hst, hnum, hout⟩, -, hlen, hscan, -, hown, hpeer, hreq, hc, hinf⟩ :=
    initInv_foldl h hs hw le_rfl
  rw [startWorker_eq hinit]
  refine hs.set hw hst hscan hown (by simpa using hlen) (hreq hw) hpeer
    (by rw [hnum, hout]; simp [startState, slice]) hc fun r hr => ?_
  have hold := hs.conserve r hr
  unfold Conserved at hold ⊢
  simp only [hinf]
  rcases eq_or_ne r w with rfl | hrw
  · rw [hinit] at hold
    rw [set_workers_self, hout, ← hold, sum_eq_add_sum_of_eq_add (Finset.mem_range.2 hw)
      (F := fun v => (inflight W inp s v r : Multiset Elem)) (a := (slice W inp r r : Multiset Elem))
      (G := fun v => (inflight W inp (s.set r (startState W inp r) s.chans) v r : Multiset Elem)) ?_ ?_]
    · simp [initialWorker, startState]
    · simpa [inflight, hinit, startState, initialWorker, slice] using List.perm_append_comm
    · intro v _ hv
      simp [inflight, hv]
  · rw [set_workers_of_ne hrw, ← hold]
    refine congrArg _ (Finset.sum_congr rfl fun v _ => ?_)
    rcases eq_or_ne v w with rfl | hv
    · simp [inflight, hinit, startState, initialWorker, Function.update_noteq hrw]
    · simp [inflight, hv]

end Start

/-- Every step of the transport's choosing keeps the invariant. -/
theorem PartInv.step (h : SplitsOk W N inp) {s s' : PartNet} (hs : PartInv W N inp s) {c : PartChoice}
    (hc : partStep W N inp s c = some s') : PartInv W N inp s' := by
  cases c with
  | start w =>
    simp only [partStep] at hc
    split_ifs at hc with hg
    cases hc
    exact hs.step_start h hg.1 hg.2
  | sendDone w i => exact hs.step_sendDone hc
  | recvDone w src => exact hs.step_recvDone hc

theorem PartInv.run (h : SplitsOk W N inp) {s s' : PartNet} (hs : PartInv W N inp s) {cs : List PartChoice}
    (hrun : partRun W N inp s cs = some s') : PartInv W N inp s' := by
  induction cs generalizing s with
  | nil => exact Option.some.inj hrun ▸ hs
  | cons c cs ih =>
    obtain ⟨s₁, h₁, hrun⟩ := Option.bind_eq_some.1 hrun
    exact ih (hs.step h h₁) hrun

/-- What worker `r` has received and what is on its way add up to its share. -/
theorem PartInv.received_add (h : SplitsOk W N inp) {s : PartNet} (hs : PartInv W N inp s) {r : ℕ}
    (hr : r < W) : (s.workers r).numReceived + ∑ w ∈ Finset.range W, (inflight W inp s w r).length =
      srcLocalLength N W r := by
  have := congrArg Multiset.card (hs.conserve r hr)
  simp only [map_add, map_sum, Multiset.coe_card] at this
  rw [← hs.out_len r, this, h.sum_slice_length hr]

theorem PartInv.numReceived_le (h : SplitsOk W N inp) {s : PartNet} (hs : PartInv W N inp s) {r : ℕ}
    (hr : r < W) : (s.workers r).numReceived ≤ srcLocalLength N W r := by
  have := hs.received_add h hr
  omega

/-- A chunk queued for `r` is no longer than the records `r` still misses. -/
theorem PartInv.chunk_le_missing (h : SplitsOk W N inp) {s : PartNet} (hs : PartInv W N inp s)
    {r src : ℕ} (hr : r < W) {m : List Elem} (hm : m ∈ s.chans (src, r)) :
    (s.workers r).numReceived + m.length ≤ srcLocalLength N W r := by
  have hsrc : src < W := hs.chans.2 src r (List.ne_nil_of_mem hm)
  have hle : m.length ≤ (inflight W inp s src r).length := by
    simp only [inflight, List.length_append]
    have := (List.sublist_flatten_of_mem hm).length_le
    omega
  have : (inflight W inp s src r).length ≤ ∑ w ∈ Finset.range W, (inflight W inp s w r).length :=
    Finset.single_le_sum (f := fun w => (inflight W inp s w r).length) (fun _ _ => Nat.zero_le _)
      (Finset.mem_range.2 hsrc)
  have := hs.received_add h hr
  omega

/-- Every `irecv` is at least as large as any chunk it can receive. -/
theorem PartInv.recv_fits (h : SplitsOk W N inp) {s : PartNet} (hs : PartInv W N inp s) {r n : ℕ}
    (hr : r < W) (hreq : (s.workers r).requests r = .recv n) {src : ℕ} {m : List Elem}
    (hm : m ∈ s.chans (src, r)) : m.length ≤ n := by
  have hst : (s.workers r).started = true := by
    by_contra hst
    rw [hs.idle r (by simpa using hst)] at hreq
    cases hreq
  have hown := hs.own_req r hst
  unfold OwnReqOk at hown
  rw [hreq] at hown
  split_ifs at hown
  · cases hown
    have := hs.chunk_le_missing h hr hm
    have := (hs.chans.1 _ m hm).2
    omega

end InvFacts

end DistributedSgxSort
