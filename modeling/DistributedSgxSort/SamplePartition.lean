import DistributedSgxSort.Layout
import DistributedSgxSort.Memory
import DistributedSgxSort.Elem

/-! The request loop of `distributed_sample_partition` in `nonoblivious.c`, on all `W`
workers at once. After quickselect each worker's array is cut by `sample_idxs` into `W`
slices; slice `i` goes to worker `i` in chunks of at most `SAMPLE_PARTITION_BUF_SIZE`
records, through at most one `isend` per peer and one `irecv` from any source at a time.

The transport copies a send's buffer when the send is posted, so a posted chunk is queued
at once on the FIFO channel from its sender to its receiver, and its request may complete
at any later time. A receive completes with the head of any non-empty channel to its
worker. One step is one worker copying its own slice and posting its first requests, or
one `mpi_tls_waitany` returning one completed request, with the code that follows it: its
send request to worker `i`, or its receive request with the head of the channel from `src`.
An entry of `requests` is `MPI_TLS_NULL` or an outstanding `isend` or `irecv` of that many
records.

Sizes are `size_t`; the subtractions are modelled on `ℕ`, which agrees with `size_t` as
long as they do not wrap, and the invariants show that they never do. -/
namespace DistributedSgxSort

/-- `SAMPLE_PARTITION_BUF_SIZE`. -/
def samplePartitionBufSize : ℕ := 512

inductive Req
  | null
  | send (n : ℕ)
  | recv (n : ℕ)
  deriving DecidableEq

/-- `1` for an outstanding request, `0` for `MPI_TLS_NULL`. -/
def Req.live : Req → ℕ
  | .null => 0
  | _ => 1

/-- An outstanding `isend`. -/
def Req.isSend : Req → Bool
  | .send _ => true
  | _ => false

/-- What one worker's request loop reads and writes: `sample_scan_idxs`, `num_received`,
`out[0 .. num_received)`, `requests` and `requests_len`. `started` is set once the worker
has copied its own slice and posted its first requests. -/
structure PartWorker where
  started : Bool
  scan : ℕ → ℕ
  numReceived : ℕ
  out : List Elem
  requests : ℕ → Req
  requestsLen : ℕ

/-- All workers, and the chunks in flight, by (sender, receiver). -/
structure PartNet where
  workers : ℕ → PartWorker
  chans : ℕ × ℕ → List (List Elem)

/-- What quickselect leaves on each worker: its records, `local_length`, and
`sample_idxs[0 .. W - 1)`. -/
structure PartInput where
  arr : ℕ → ℕ → Elem
  localLength : ℕ → ℕ
  sampleIdxs : ℕ → ℕ → ℕ

inductive PartChoice
  | start (w : ℕ)
  | sendDone (w i : ℕ)
  | recvDone (w src : ℕ)

section Model

variable (W N : ℕ) (inp : PartInput)

/-- `sample_idxs[i]` once `sample_idxs[world_size - 1] = local_length`. -/
def splitEnd (w i : ℕ) : ℕ := if i = W - 1 then inp.localLength w else inp.sampleIdxs w i

/-- `sample_scan_idxs[i]` as first set: `0`, then `sample_idxs[i - 1]`. -/
def splitStart (w i : ℕ) : ℕ := if i = 0 then 0 else inp.sampleIdxs w (i - 1)

/-- The records of worker `w` bound for worker `i`. -/
def slice (w i : ℕ) : List Elem :=
  readRange (inp.arr w) (splitStart inp w i) (splitEnd W inp w i - splitStart inp w i)

/-- The number of outstanding requests among `requests[0 .. W)`. -/
def liveCount (requests : ℕ → Req) : ℕ := ∑ i ∈ Finset.range W, (requests i).live

/-- A worker before it runs: the scan cursors as first set, nothing received,
`requests_len = world_size`. -/
def initialWorker (w : ℕ) : PartWorker :=
  ⟨false, splitStart inp w, 0, [], fun _ => .null, W⟩

/-- Worker `w` with state `st`, the channels `chans`. -/
def PartNet.set (s : PartNet) (w : ℕ) (st : PartWorker) (chans : ℕ × ℕ → List (List Elem)) :
    PartNet :=
  ⟨Function.update s.workers w st, chans⟩

/-- `mpi_tls_isend_bytes(arr + sample_scan_idxs[i], elems_to_send, i, …)` with
`elems_to_send = MIN(sample_idxs[i] - sample_scan_idxs[i], SAMPLE_PARTITION_BUF_SIZE)`,
then `sample_scan_idxs[i] += elems_to_send`. -/
def postSend (w i : ℕ) (st : PartWorker) (chans : ℕ × ℕ → List (List Elem)) :
    PartWorker × (ℕ × ℕ → List (List Elem)) :=
  let elems := min (splitEnd W inp w i - st.scan i) samplePartitionBufSize
  ({ st with
      scan := Function.update st.scan i (st.scan i + elems)
      requests := Function.update st.requests i (.send elems) },
    Function.update chans (w, i) (chans (w, i) ++ [readRange (inp.arr w) (st.scan i) elems]))

/-- `requests[i].type = MPI_TLS_NULL; requests_len--;`. -/
def dropReq (i : ℕ) (st : PartWorker) : PartWorker :=
  { st with requests := Function.update st.requests i .null, requestsLen := st.requestsLen - 1 }

/-- `elems_to_recv = MIN(src_local_length - num_received, SAMPLE_PARTITION_BUF_SIZE)`, and
an `irecv` of that many records if there are any, `MPI_TLS_NULL` otherwise. -/
def postRecv (w : ℕ) (st : PartWorker) : PartWorker :=
  let elems := min (srcLocalLength N W w - st.numReceived) samplePartitionBufSize
  if 0 < elems then { st with requests := Function.update st.requests w (.recv elems) }
  else dropReq w st

/-- One iteration of the loop that constructs the initial requests, for slot `i`. -/
def initSlot (w : ℕ) (acc : PartWorker × (ℕ × ℕ → List (List Elem))) (i : ℕ) :
    PartWorker × (ℕ × ℕ → List (List Elem)) :=
  if i = w then (postRecv W N w acc.1, acc.2)
  else if acc.1.scan i < splitEnd W inp w i then postSend W inp w i acc.1 acc.2
  else (dropReq i acc.1, acc.2)

/-- Worker `w` copies its own slice to `out`, moves its own cursor to the slice's end, and
posts its initial requests. -/
def startWorker (w : ℕ) (s : PartNet) : PartNet :=
  let st := s.workers w
  let numReceived := splitEnd W inp w w - st.scan w
  let st := { st with
    started := true
    numReceived := numReceived
    out := readRange (inp.arr w) (st.scan w) numReceived
    scan := Function.update st.scan w (splitEnd W inp w w) }
  let r := (List.range W).foldl (initSlot W N inp w) (st, s.chans)
  s.set w r.1 r.2

/-- `mpi_tls_waitany` on worker `w` returns its send request to `i`: post the next chunk
if `sample_idxs[i] - sample_scan_idxs[i] > 0`, else drop the request. -/
def sendDone (w i : ℕ) (s : PartNet) : Option PartNet :=
  let st := s.workers w
  if st.started ∧ st.requestsLen ≠ 0 ∧ i < W ∧ i ≠ w ∧ (st.requests i).isSend then
    some (if 0 < splitEnd W inp w i - st.scan i then
        let r := postSend W inp w i st s.chans
        s.set w r.1 r.2
      else s.set w (dropReq i st) s.chans)
  else none

/-- `mpi_tls_waitany` on worker `w` returns its receive request, completed with the head
`m` of the channel from `src`, which fits the `irecv`: `num_received` grows by the received
count, and the next `irecv` is posted or the request dropped. -/
def recvDone (w src : ℕ) (s : PartNet) : Option PartNet :=
  let st := s.workers w
  match st.requests w, s.chans (src, w) with
  | .recv n, m :: rest =>
    if st.started ∧ st.requestsLen ≠ 0 ∧ src < W ∧ m.length ≤ n then
      some (s.set w (postRecv W N w { st with numReceived := st.numReceived + m.length, out := st.out ++ m })
        (Function.update s.chans (src, w) rest))
    else none
  | _, _ => none

/-- One step of the transport's choosing. -/
def partStep (s : PartNet) : PartChoice → Option PartNet
  | .start w => if w < W ∧ (s.workers w).started = false then some (startWorker W N inp w s) else none
  | .sendDone w i => sendDone W inp w i s
  | .recvDone w src => recvDone W N w src s

/-- The steps of a list of choices, in order, if each can be taken. -/
def partRun (s : PartNet) : List PartChoice → Option PartNet
  | [] => some s
  | c :: cs => (partStep W N inp s c).bind fun s' => partRun s' cs

/-- Every worker before `distributed_sample_partition`'s copy, and no chunk in flight. -/
def partInit : PartNet := ⟨initialWorker W inp, fun _ => []⟩

/-- Worker `w` has left the request loop. -/
def PartWorker.Finished (st : PartWorker) : Prop := st.started = true ∧ st.requestsLen = 0

end Model

end DistributedSgxSort
