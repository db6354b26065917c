import DistributedSgxSort.Mergesort

/-! The host side of the transport: the `ocall_mpi_*` functions of `parallel.c`.

A non-blocking call allocates a `struct ocall_mpi_request` and a buffer it owns, and starts
an MPI request on that buffer; the wait calls complete the MPI request, copy a received
message out, and free the buffer and the struct. The model keeps the host heap by address
(0 is `NULL`), each live block a request struct or a byte buffer, and the MPI requests in
progress by handle (0 is `MPI_REQUEST_NULL`); it takes what `malloc` and the MPI library
answer as an argument of each call. A `NULL` dereference, a read of freed memory and a
`free` of an address not allocated are faults.

MPI completes a request only through `MPI_Wait`, `MPI_Waitany` or a `MPI_Test` that sets
its flag; `MPI_Cancel` leaves the request in progress until one of them completes it. -/
namespace DistributedSgxSort

/-- `enum ocall_mpi_request_type`. -/
inductive OcallMpiRequestType
  | send
  | recv
  deriving DecidableEq, Repr

/-- `struct ocall_mpi_request`: its type, the address of the buffer it owns and the MPI
request it wraps. -/
structure OcallMpiRequest where
  type : OcallMpiRequestType
  buf : ℕ
  mpiRequest : ℕ
  deriving DecidableEq, Repr

inductive Block
  | request (r : OcallMpiRequest)
  | bytes (data : List UInt8)
  deriving DecidableEq, Repr

/-- An MPI request in progress: a send from, or a receive of at most `count` bytes into,
the buffer at `buf`. -/
structure MpiOp where
  type : OcallMpiRequestType
  buf : ℕ
  count : ℕ
  deriving DecidableEq, Repr

/-- The host as the adaptor sees it: the heap with the next address `malloc` hands out, and
the MPI requests in progress with the next handle. -/
structure HostState where
  heap : ℕ → Option Block
  next : ℕ
  mpi : ℕ → Option MpiOp
  mpiNext : ℕ

inductive Fault
  | nullDeref
  | useAfterFree
  | badFree
  deriving DecidableEq, Repr

/-- The answers of `malloc` and of the MPI library to one call: whether the `malloc` of the
struct and of its buffer succeed, the return code of the MPI call and of `MPI_Get_count`,
the bytes a receive completes with, the index `MPI_Waitany` reports (`none` for
`MPI_UNDEFINED`) and the flag of `MPI_Test`; and the `errno` that `perror` leaves after a
failed `malloc`, which is not zero. -/
structure MpiReply where
  requestMalloc : Bool
  bufMalloc : Bool
  ret : ℤ
  getCountRet : ℤ
  data : List UInt8
  index : Option ℕ
  flag : Bool
  errno : ℤ
  errno_ne_zero : errno ≠ 0
  deriving DecidableEq, Repr

/-- `INT_MAX`. -/
def intMax : ℕ := 2147483647

/-- `MPI_ERR_COUNT`. -/
def mpiErrCount : ℤ := 2

@[simp] theorem except_ok_bind {ε α β : Type} (a : α) (f : α → Except ε β) :
    (Except.ok a >>= f) = f a := rfl

@[simp] theorem except_error_bind {ε α β : Type} (e : ε) (f : α → Except ε β) :
    (Except.error e >>= f) = Except.error e := rfl

@[simp] theorem except_pure {ε α : Type} (a : α) : (pure a : Except ε α) = .ok a := rfl

namespace HostState

/-- `free(p)`; `free(NULL)` does nothing. -/
def free (s : HostState) (p : ℕ) : Except Fault HostState :=
  if p = 0 then .ok s
  else if (s.heap p).isSome then .ok { s with heap := Function.update s.heap p none }
  else .error .badFree

/-- The request struct at `p`, as `p->...` reads it. -/
def request (s : HostState) (p : ℕ) : Except Fault OcallMpiRequest :=
  if p = 0 then .error .nullDeref
  else match s.heap p with
    | some (.request r) => .ok r
    | _ => .error .useAfterFree

/-- The buffer at `p`, as `memcpy` reads it. -/
def bytes (s : HostState) (p : ℕ) : Except Fault (List UInt8) :=
  if p = 0 then .error .nullDeref
  else match s.heap p with
    | some (.bytes d) => .ok d
    | _ => .error .useAfterFree

/-- `malloc` of a block holding `b`: the next address, or `NULL` when it fails. -/
def malloc (s : HostState) (ok : Bool) (b : Block) : HostState × ℕ :=
  if ok then ({ s with heap := Function.update s.heap s.next (some b), next := s.next + 1 }, s.next)
  else (s, 0)

/-- Writing the fields of the request struct at `p`. -/
def setRequest (s : HostState) (p : ℕ) (r : OcallMpiRequest) : HostState :=
  { s with heap := Function.update s.heap p (some (.request r)) }

/-- `MPI_Isend` or `MPI_Irecv` returning success: a new request in progress. -/
def mpiStart (s : HostState) (op : MpiOp) : HostState × ℕ :=
  ({ s with mpi := Function.update s.mpi s.mpiNext (some op), mpiNext := s.mpiNext + 1 },
    s.mpiNext)

/-- MPI completing the request `h` with success, with the status count: at once with an
empty status on `MPI_REQUEST_NULL`, and a receive first writes as much of the message as
fits into its buffer. -/
def mpiComplete (s : HostState) (h : ℕ) (data : List UInt8) : Except Fault (HostState × ℕ) :=
  match s.mpi h with
  | none => .ok (s, 0)
  | some op =>
    match s.heap op.buf, op.type with
    | some (.bytes _), .send => .ok ({ s with mpi := Function.update s.mpi h none }, 0)
    | some (.bytes _), .recv =>
      .ok ({ s with
          mpi := Function.update s.mpi h none
          heap := Function.update s.heap op.buf (some (.bytes (data.take op.count))) },
        (data.take op.count).length)
    | _, _ => .error .useAfterFree

/-- `exit_free_request:` of the wait calls, `free((*request)->buf); free(*request);`. -/
def freeRequest (s : HostState) (p : ℕ) : Except Fault HostState := do
  let r ← s.request p
  let s ← s.free r.buf
  s.free p

end HostState

open HostState

/-! ### The calls -/

/-- What `ocall_mpi_isend_bytes` and `ocall_mpi_irecv_bytes` share: allocate the struct of
`type`, allocate its buffer of `count` bytes holding `contents`, start the MPI request;
`ret`, the value left in `*request` (its old value `request` when `count` is too large)
and the host. -/
def startRequest (type : OcallMpiRequestType) (contents : List UInt8) (s : HostState)
    (count request : ℕ) (env : MpiReply) : Except Fault (ℤ × ℕ × HostState) :=
  if count > intMax then .ok (mpiErrCount, request, s) else
  let (s, req) := s.malloc env.requestMalloc (.request ⟨type, 0, 0⟩)
  if req = 0 then .ok (env.errno, req, s) else
  let (s, b) := s.malloc env.bufMalloc (.bytes contents)
  let s := s.setRequest req ⟨type, b, 0⟩
  if b = 0 then (fun s => (env.errno, req, s)) <$> s.free req else
  if env.ret ≠ 0 then (fun s => (env.ret, req, s)) <$> s.freeRequest req else
  let (s, h) := s.mpiStart ⟨type, b, count⟩
  .ok (0, req, s.setRequest req ⟨type, b, h⟩)

/-- `ocall_mpi_isend_bytes` of the caller's bytes `buf`, copied into the request's buffer. -/
def ocallMpiIsendBytes (s : HostState) (buf : List UInt8) (count request : ℕ)
    (env : MpiReply) : Except Fault (ℤ × ℕ × HostState) :=
  startRequest .send (buf.take count) s count request env

/-- `ocall_mpi_irecv_bytes`; the buffer's first contents are never read. -/
def ocallMpiIrecvBytes (s : HostState) (count request : ℕ) (env : MpiReply) :
    Except Fault (ℤ × ℕ × HostState) :=
  startRequest .recv (List.replicate count 0) s count request env

/-- What the wait calls return besides the host: `ret`, `status->count` when they set it
(for a receive), and the bytes copied into the caller's buffer. -/
structure WaitResult where
  ret : ℤ
  statusCount : Option ℕ
  out : List UInt8
  deriving DecidableEq, Repr

/-- The end the wait calls share once MPI completed the request at `p`, whose struct is `r`,
with status count `statusCount`: `switch ((*request)->type)`, for a receive `MPI_Get_count`
and the copy of `MIN(count, status->count)` bytes out, and `exit_free_request:`. -/
def finishRequest (s : HostState) (p : ℕ) (r : OcallMpiRequest) (count statusCount : ℕ)
    (getCountRet : ℤ) : Except Fault (WaitResult × HostState) := do
  match r.type with
  | .send =>
    let s ← s.freeRequest p
    return (⟨0, none, []⟩, s)
  | .recv =>
    if getCountRet ≠ 0 then
      let s ← s.freeRequest p
      return (⟨getCountRet, none, []⟩, s)
    let got ← s.bytes r.buf
    let s ← s.freeRequest p
    return (⟨0, some statusCount, got.take (min count statusCount)⟩, s)

/-- `ocall_mpi_wait` into a caller buffer of `count` bytes. -/
def ocallMpiWait (s : HostState) (count request : ℕ) (env : MpiReply) :
    Except Fault (WaitResult × HostState) := do
  let mpiRequest ← if request = 0 then pure 0 else OcallMpiRequest.mpiRequest <$> s.request request
  if env.ret ≠ 0 then
    let s ← s.freeRequest request
    return (⟨env.ret, none, []⟩, s)
  let (s, statusCount) ← s.mpiComplete mpiRequest env.data
  let r ← s.request request
  finishRequest s request r count statusCount env.getCountRet

/-- `ocall_mpi_waitany` over `requests` into a caller buffer of `bufcount` bytes, the
caller's `*index` being `index`: the result, `*index` and the host. An index past the
array reads as `NULL`. -/
def ocallMpiWaitany (s : HostState) (bufcount : ℕ) (requests : List ℕ) (index : ℕ)
    (env : MpiReply) : Except Fault (WaitResult × ℕ × HostState) := do
  let mpiRequests ← requests.mapM fun p =>
    if p = 0 then pure 0 else OcallMpiRequest.mpiRequest <$> s.request p
  if env.ret ≠ 0 then
    let s ← s.freeRequest (requests.getD index 0)
    return (⟨env.ret, none, []⟩, index, s)
  match env.index with
  | none => return (⟨-1, none, []⟩, index, s)
  | some i =>
    let (s, statusCount) ← s.mpiComplete (mpiRequests.getD i 0) env.data
    let r ← s.request (requests.getD i 0)
    (fun (res, s) => (res, i, s)) <$>
      finishRequest s (requests.getD i 0) r bufcount statusCount env.getCountRet

/-- `ocall_mpi_try_wait`: the result, `*flag` and the host. -/
def ocallMpiTryWait (s : HostState) (count request : ℕ) (env : MpiReply) :
    Except Fault (WaitResult × Bool × HostState) := do
  let r ← s.request request
  if env.ret ≠ 0 then
    let s ← s.freeRequest request
    return (⟨env.ret, none, []⟩, env.flag, s)
  if !env.flag then return (⟨0, none, []⟩, false, s)
  let (s, statusCount) ← s.mpiComplete r.mpiRequest env.data
  (fun (res, s) => (res, true, s)) <$> finishRequest s request r count statusCount env.getCountRet

/-- `ocall_mpi_cancel`: `MPI_Cancel` only marks the request, then the struct and its buffer
are freed. -/
def ocallMpiCancel (s : HostState) (request : ℕ) (env : MpiReply) :
    Except Fault (ℤ × HostState) := do
  let _ ← s.request request
  let s ← s.freeRequest request
  return (env.ret, s)

/-- The return value of `ocall_mpi_recv_bytes`: the `ret` of `MPI_Recv` is overwritten by
that of `MPI_Get_count` before anything reads it. -/
def ocallMpiRecvBytes (count : ℕ) (_recvRet getCountRet : ℤ) : ℤ :=
  if count > intMax then mpiErrCount else getCountRet

/-! ### A caller of the adaptor

A caller makes calls of the adaptor, each with the answers `malloc` and MPI give it. It
holds the handles that `isend` and `irecv` returned with `ret = 0`, and gives each one back
exactly once, to the call that completes it. -/

inductive OcallMpiCall
  | isend (buf : List UInt8) (count : ℕ) (env : MpiReply)
  | irecv (count : ℕ) (env : MpiReply)
  | wait (count request : ℕ) (env : MpiReply)
  | waitany (bufcount : ℕ) (requests : List ℕ) (index : ℕ) (env : MpiReply)
  | tryWait (count request : ℕ) (env : MpiReply)
  deriving DecidableEq, Repr

/-- The host after one call, and the handles the caller holds then; `*request` starts as
`NULL`. -/
def ocallMpiStep (s : HostState) (held : List ℕ) :
    OcallMpiCall → Except Fault (HostState × List ℕ)
  | .isend buf count env => (fun (ret, req, s) => (s, if ret = 0 then req :: held else held)) <$>
      ocallMpiIsendBytes s buf count 0 env
  | .irecv count env => (fun (ret, req, s) => (s, if ret = 0 then req :: held else held)) <$>
      ocallMpiIrecvBytes s count 0 env
  | .wait count request env => (fun (_, s) => (s, held.erase request)) <$>
      ocallMpiWait s count request env
  | .waitany bufcount requests index env =>
    (fun (res, i, s) => (s, if res.ret = -1 then held else held.erase (requests.getD i 0))) <$>
      ocallMpiWaitany s bufcount requests index env
  | .tryWait count request env => (fun (_, flag, s) => (s, if flag then held.erase request else held)) <$>
      ocallMpiTryWait s count request env

/-- The calls of a run, one after another. -/
def ocallMpiRun (s : HostState) (held : List ℕ) : List OcallMpiCall → Except Fault (HostState × List ℕ)
  | [] => .ok (s, held)
  | c :: cs => ocallMpiStep s held c >>= fun (s, held) => ocallMpiRun s held cs

/-- What MPI may answer to `MPI_Waitany` over `requests`: an entry that is not `NULL`, and
`MPI_UNDEFINED` only when all are. -/
def WaitanyIndexOk (requests : List ℕ) : Option ℕ → Prop
  | none => ∀ p ∈ requests, p = 0
  | some i => requests.getD i 0 ≠ 0

instance (requests : List ℕ) : (i : Option ℕ) → Decidable (WaitanyIndexOk requests i)
  | none => inferInstanceAs (Decidable (∀ p ∈ requests, p = 0))
  | some i => inferInstanceAs (Decidable (requests.getD i 0 ≠ 0))

/-- A call a careful caller makes holding `held`: it waits only on handles it holds, and MPI
reports success. -/
def OcallMpiCall.Careful (held : List ℕ) : OcallMpiCall → Prop
  | .isend .. | .irecv .. => True
  | .wait _ request env | .tryWait _ request env =>
    request ∈ held ∧ env.ret = 0 ∧ env.getCountRet = 0
  | .waitany _ requests _ env =>
    (∀ p ∈ requests, p = 0 ∨ p ∈ held) ∧ env.ret = 0 ∧ env.getCountRet = 0 ∧
      WaitanyIndexOk requests env.index

instance (held : List ℕ) : (c : OcallMpiCall) → Decidable (c.Careful held)
  | .isend .. | .irecv .. => isTrue trivial
  | .wait _ request env | .tryWait _ request env =>
    inferInstanceAs (Decidable (request ∈ held ∧ env.ret = 0 ∧ env.getCountRet = 0))
  | .waitany _ requests _ env =>
    inferInstanceAs (Decidable ((∀ p ∈ requests, p = 0 ∨ p ∈ held) ∧ env.ret = 0 ∧
      env.getCountRet = 0 ∧ WaitanyIndexOk requests env.index))

/-- Every call of the run is careful, with the handles held at that point. -/
def CarefulRun : HostState → List ℕ → List OcallMpiCall → Prop
  | _, _, [] => True
  | s, held, c :: cs => c.Careful held ∧
    match ocallMpiStep s held c with
    | .ok (s', held') => CarefulRun s' held' cs
    | .error _ => True

instance decidableCarefulRun : ∀ s held cs, Decidable (CarefulRun s held cs)
  | _, _, [] => isTrue trivial
  | s, held, c :: cs =>
    match h : ocallMpiStep s held c with
    | .ok (s', held') =>
      haveI := decidableCarefulRun s' held' cs
      decidable_of_iff (c.Careful held ∧ CarefulRun s' held' cs) (by simp [CarefulRun, h])
    | .error _ => decidable_of_iff (c.Careful held) (by simp [CarefulRun, h])

/-- The host before any call. -/
def hostInit : HostState := ⟨fun _ => none, 1, fun _ => none, 1⟩

/-! ### Heap lemmas -/

namespace HostState

variable {s : HostState} {p : ℕ}

theorem free_eq (hp : p ≠ 0) (h : (s.heap p).isSome) :
    s.free p = .ok { s with heap := Function.update s.heap p none } := by
  simp [free, hp, h]

theorem request_eq {r : OcallMpiRequest} (hp : p ≠ 0) (h : s.heap p = some (.request r)) :
    s.request p = .ok r := by
  simp [request, hp, h]

theorem bytes_eq {d : List UInt8} (hp : p ≠ 0) (h : s.heap p = some (.bytes d)) :
    s.bytes p = .ok d := by
  simp [bytes, hp, h]

theorem freeRequest_eq {r : OcallMpiRequest} (hp : p ≠ 0) (h : s.heap p = some (.request r))
    (hb : r.buf ≠ 0) (hbl : (s.heap r.buf).isSome) (hne : p ≠ r.buf) :
    s.freeRequest p =
      .ok { s with heap := Function.update (Function.update s.heap r.buf none) p none } := by
  simp only [freeRequest, request_eq hp h, except_ok_bind, free_eq hb hbl]
  simp [free, hp, Function.update_noteq hne, h]

end HostState

/-! ### The invariant of a careful caller -/

/-- The host, with `reqs` the handles a careful caller holds and the struct each points to:
every held struct is live, with a live buffer and its MPI request in progress on that
buffer; the structs, buffers and MPI requests of different handles are apart; and nothing
else is allocated or in progress. -/
structure ReqInv (s : HostState) (reqs : List (ℕ × OcallMpiRequest)) : Prop where
  next_pos : 0 < s.next
  mpiNext_pos : 0 < s.mpiNext
  heap_fresh : ∀ p, s.next ≤ p → s.heap p = none
  mpi_fresh : ∀ h, s.mpiNext ≤ h → s.mpi h = none
  heap_zero : s.heap 0 = none
  mpi_zero : s.mpi 0 = none
  nodup : reqs.Nodup
  apart : ∀ e₁ ∈ reqs, ∀ e₂ ∈ reqs, e₁ ≠ e₂ →
    e₁.1 ≠ e₂.1 ∧ e₁.2.buf ≠ e₂.2.buf ∧ e₁.2.mpiRequest ≠ e₂.2.mpiRequest
  live : ∀ e ∈ reqs, s.heap e.1 = some (.request e.2) ∧ (∃ d, s.heap e.2.buf = some (.bytes d)) ∧
    ∃ n, s.mpi e.2.mpiRequest = some ⟨e.2.type, e.2.buf, n⟩
  heap_owned : ∀ p, (s.heap p).isSome → ∃ e ∈ reqs, p = e.1 ∨ p = e.2.buf
  mpi_owned : ∀ h, (s.mpi h).isSome → ∃ e ∈ reqs, h = e.2.mpiRequest

theorem reqInv_init : ReqInv hostInit [] where
  next_pos := Nat.one_pos
  mpiNext_pos := Nat.one_pos
  heap_fresh _ _ := rfl
  mpi_fresh _ _ := rfl
  heap_zero := rfl
  mpi_zero := rfl
  nodup := List.nodup_nil
  apart := by simp
  live := by simp
  heap_owned := by simp [hostInit]
  mpi_owned := by simp [hostInit]

namespace ReqInv

variable {s : HostState} {reqs : List (ℕ × OcallMpiRequest)} {e : ℕ × OcallMpiRequest}

theorem ne_zero (hs : ReqInv s reqs) (he : e ∈ reqs) :
    e.1 ≠ 0 ∧ e.2.buf ≠ 0 ∧ e.2.mpiRequest ≠ 0 := by
  obtain ⟨h1, ⟨d, h2⟩, n, h3⟩ := hs.live e he
  refine ⟨?_, ?_, ?_⟩ <;> rintro h <;> simp_all [hs.heap_zero, hs.mpi_zero]

theorem lt_next (hs : ReqInv s reqs) (he : e ∈ reqs) :
    e.1 < s.next ∧ e.2.buf < s.next ∧ e.2.mpiRequest < s.mpiNext := by
  obtain ⟨h1, ⟨d, h2⟩, n, h3⟩ := hs.live e he
  refine ⟨?_, ?_, ?_⟩ <;> refine Nat.lt_of_not_le fun h => ?_
  · simp [hs.heap_fresh _ h] at h1
  · simp [hs.heap_fresh _ h] at h2
  · simp [hs.mpi_fresh _ h] at h3

theorem fst_ne_buf (hs : ReqInv s reqs) {e₁ e₂ : ℕ × OcallMpiRequest} (h₁ : e₁ ∈ reqs)
    (h₂ : e₂ ∈ reqs) : e₁.1 ≠ e₂.2.buf := fun h => by
  obtain ⟨d, hd⟩ := (hs.live e₂ h₂).2.1
  have := (hs.live e₁ h₁).1
  rw [h, hd] at this
  cases this

/-- Memory and MPI changed only at a held request's struct, buffer and MPI request, which
are gone: the invariant holds without it. -/
theorem remove (hs : ReqInv s reqs) (he : e ∈ reqs) {s' : HostState} (hnext : s'.next = s.next)
    (hmn : s'.mpiNext = s.mpiNext)
    (hheap : ∀ p, p ≠ e.1 → p ≠ e.2.buf → s'.heap p = s.heap p) (h₁ : s'.heap e.1 = none)
    (h₂ : s'.heap e.2.buf = none)
    (hmpi : ∀ h, h ≠ e.2.mpiRequest → s'.mpi h = s.mpi h) (h₃ : s'.mpi e.2.mpiRequest = none) :
    ReqInv s' (reqs.erase e) := by
  have hz := hs.ne_zero he
  have hlt := hs.lt_next he
  have hmem : ∀ {e'}, e' ∈ reqs.erase e ↔ e' ≠ e ∧ e' ∈ reqs := hs.nodup.mem_erase_iff
  refine ⟨hnext ▸ hs.next_pos, hmn ▸ hs.mpiNext_pos, fun p hp => ?_, fun h hh => ?_, ?_, ?_,
    hs.nodup.erase e, fun e₁ h₁ e₂ h₂ => hs.apart e₁ (hmem.1 h₁).2 e₂ (hmem.1 h₂).2,
    fun e' he' => ?_, fun p hp => ?_, fun h hh => ?_⟩
  · rw [hheap p (by omega) (by omega)]; exact hs.heap_fresh p (by omega)
  · rw [hmpi h (by omega)]; exact hs.mpi_fresh h (by omega)
  · rw [hheap 0 (Ne.symm hz.1) (Ne.symm hz.2.1)]; exact hs.heap_zero
  · rw [hmpi 0 (Ne.symm hz.2.2)]; exact hs.mpi_zero
  · obtain ⟨hne, he'⟩ := hmem.1 he'
    obtain ⟨a₁, a₂, a₃⟩ := hs.apart e' he' e he hne
    rw [hheap _ a₁ (hs.fst_ne_buf he' he), hheap _ (Ne.symm (hs.fst_ne_buf he he')) a₂,
      hmpi _ a₃]
    exact hs.live e' he'
  · have hp₁ : p ≠ e.1 := fun h => by simp [h, h₁] at hp
    have hp₂ : p ≠ e.2.buf := fun h => by simp [h, h₂] at hp
    rw [hheap p hp₁ hp₂] at hp
    obtain ⟨e', he', h⟩ := hs.heap_owned p hp
    exact ⟨e', hmem.2 ⟨fun h' => by subst h'; rcases h with h | h <;> contradiction, he'⟩, h⟩
  · have hh₁ : h ≠ e.2.mpiRequest := fun h' => by simp [h', h₃] at hh
    rw [hmpi h hh₁] at hh
    obtain ⟨e', he', h'⟩ := hs.mpi_owned h hh
    exact ⟨e', hmem.2 ⟨fun h'' => by subst h''; contradiction, he'⟩, h'⟩

/-- Memory and MPI as they were, with `malloc` further on: the invariant holds still. -/
theorem frame (hs : ReqInv s reqs) {s' : HostState} (hheap : s'.heap = s.heap)
    (hmpi : s'.mpi = s.mpi) (hnext : s.next ≤ s'.next) (hmn : s'.mpiNext = s.mpiNext) :
    ReqInv s' reqs where
  next_pos := by have := hs.next_pos; omega
  mpiNext_pos := hmn ▸ hs.mpiNext_pos
  heap_fresh p hp := hheap ▸ hs.heap_fresh p (by omega)
  mpi_fresh h hh := hmpi ▸ hs.mpi_fresh h (hmn ▸ hh)
  heap_zero := hheap ▸ hs.heap_zero
  mpi_zero := hmpi ▸ hs.mpi_zero
  nodup := hs.nodup
  apart := hs.apart
  live := hheap ▸ hmpi ▸ hs.live
  heap_owned := hheap ▸ hs.heap_owned
  mpi_owned := hmpi ▸ hs.mpi_owned

/-- MPI completing a held request, then the end the wait calls share: the request's struct,
buffer and MPI request are gone, and a receive copies out what fits of the message. -/
theorem complete (hs : ReqInv s reqs) (he : e ∈ reqs) (count : ℕ) (data : List UInt8)
    (getCountRet : ℤ) :
    ∃ s₁ sc, s.mpiComplete e.2.mpiRequest data = .ok (s₁, sc) ∧ s₁.request e.1 = .ok e.2 ∧
      ∃ res s', finishRequest s₁ e.1 e.2 count sc getCountRet = .ok (res, s') ∧
        (getCountRet = 0 → res.ret = 0) ∧ ReqInv s' (reqs.erase e) := by
  obtain ⟨hl₁, ⟨d, hl₂⟩, n, hl₃⟩ := hs.live e he
  obtain ⟨hz₁, hz₂, -⟩ := hs.ne_zero he
  have hne : e.1 ≠ e.2.buf := hs.fst_ne_buf he he
  have hrm {s₁ : HostState} (h₁ : s₁.next = s.next) (h₂ : s₁.mpiNext = s.mpiNext)
      (hh : ∀ p, p ≠ e.2.buf → s₁.heap p = s.heap p)
      (hm : s₁.mpi = Function.update s.mpi e.2.mpiRequest none) :
      ReqInv { s₁ with heap := Function.update (Function.update s₁.heap e.2.buf none) e.1 none }
        (reqs.erase e) :=
    hs.remove he h₁ h₂ (fun p hp₁ hp₂ => by simp [Function.update_noteq hp₁, Function.update_noteq hp₂, hh p hp₂])
      (by simp) (by simp [Function.update_noteq hne.symm])
      (fun h hh => by simp [hm, Function.update_noteq hh]) (by simp [hm])
  cases hty : e.2.type with
  | send =>
    let s₁ : HostState := { s with mpi := Function.update s.mpi e.2.mpiRequest none }
    refine ⟨s₁, 0, by simp [HostState.mpiComplete, hl₃, hl₂, hty, s₁],
      HostState.request_eq hz₁ hl₁, ⟨0, none, []⟩, _, ?_, fun _ => rfl,
      @hrm s₁ rfl rfl (fun _ _ => rfl) rfl⟩
    simp [finishRequest, hty, HostState.freeRequest_eq (s := s₁) hz₁ hl₁ hz₂ (by simp [s₁, hl₂]) hne]
  | recv =>
    let s₁ : HostState := { s with
      mpi := Function.update s.mpi e.2.mpiRequest none
      heap := Function.update s.heap e.2.buf (some (.bytes (data.take n))) }
    have h₁ : s₁.heap e.1 = some (.request e.2) := by simp [s₁, Function.update_noteq hne, hl₁]
    have h₂ : s₁.heap e.2.buf = some (.bytes (data.take n)) := by simp [s₁]
    have hr := @hrm s₁ rfl rfl (fun p hp => by simp [s₁, Function.update_noteq hp]) rfl
    have hf := HostState.freeRequest_eq (s := s₁) hz₁ h₁ hz₂ (by simp [h₂]) hne
    refine ⟨s₁, (data.take n).length, by simp [HostState.mpiComplete, hl₃, hl₂, hty, s₁],
      HostState.request_eq hz₁ h₁, ?_⟩
    by_cases hg : getCountRet = 0
    · exact ⟨⟨0, some (data.take n).length, (data.take n).take (min count (data.take n).length)⟩,
        _, by simp [finishRequest, hty, hg, HostState.bytes_eq hz₂ h₂, hf], fun _ => rfl, hr⟩
    · exact ⟨⟨getCountRet, none, []⟩, _, by simp [finishRequest, hty, hg, hf],
        fun h => absurd h hg, hr⟩

/-- A fresh struct at `next`, its fresh buffer at `next + 1` and a fresh MPI request on that
buffer: the invariant holds with the new handle held. -/
theorem add (hs : ReqInv s reqs) {s' : HostState} {r : OcallMpiRequest} {d : List UInt8}
    {cnt : ℕ} (hb : r.buf = s.next + 1) (hm : r.mpiRequest = s.mpiNext)
    (hnext : s'.next = s.next + 2) (hmn : s'.mpiNext = s.mpiNext + 1)
    (hheap : s'.heap = Function.update (Function.update s.heap s.next (some (.request r)))
      (s.next + 1) (some (.bytes d)))
    (hmpi : s'.mpi = Function.update s.mpi s.mpiNext (some ⟨r.type, r.buf, cnt⟩)) :
    ReqInv s' ((s.next, r) :: reqs) := by
  have hold : ∀ e ∈ reqs, e.1 ≠ s.next ∧ e.1 ≠ s.next + 1 ∧ e.2.buf ≠ s.next ∧
      e.2.buf ≠ s.next + 1 ∧ e.2.mpiRequest ≠ s.mpiNext := fun e he => by
    have := hs.lt_next he; omega
  have hfresh := hs.heap_fresh s.next le_rfl
  refine ⟨by omega, by omega, fun p hp => ?_, fun h hh => ?_, ?_, ?_,
    List.nodup_cons.2 ⟨fun h => (hold _ h).1 rfl, hs.nodup⟩, ?_, ?_, fun p hp => ?_, fun h hh => ?_⟩
  · rw [hheap, Function.update_noteq (by omega), Function.update_noteq (by omega)]
    exact hs.heap_fresh p (by omega)
  · rw [hmpi, Function.update_noteq (by omega)]; exact hs.mpi_fresh h (by omega)
  · rw [hheap, Function.update_noteq (by omega), Function.update_noteq (by have := hs.next_pos; omega)]
    exact hs.heap_zero
  · rw [hmpi, Function.update_noteq (by have := hs.mpiNext_pos; omega)]; exact hs.mpi_zero
  · simp only [List.mem_cons]
    rintro e₁ (rfl | h₁) e₂ (rfl | h₂) hne
    · exact absurd rfl hne
    · have := hold e₂ h₂; exact ⟨Ne.symm this.1, hb ▸ Ne.symm this.2.2.2.1, hm ▸ Ne.symm this.2.2.2.2⟩
    · have := hold e₁ h₁; exact ⟨this.1, hb ▸ this.2.2.2.1, hm ▸ this.2.2.2.2⟩
    · exact hs.apart e₁ h₁ e₂ h₂ hne
  · simp only [List.mem_cons]
    rintro e (rfl | he)
    · exact ⟨by simp [hheap], ⟨d, by simp [hheap, hb]⟩, cnt, by simp [hmpi, hm]⟩
    · obtain ⟨a₁, a₂, a₃, a₄, a₅⟩ := hold e he
      obtain ⟨h₁, ⟨d', h₂⟩, n, h₃⟩ := hs.live e he
      exact ⟨by rw [hheap, Function.update_noteq a₂, Function.update_noteq a₁, h₁],
        ⟨d', by rw [hheap, Function.update_noteq a₄, Function.update_noteq a₃, h₂]⟩,
        n, by rw [hmpi, Function.update_noteq a₅, h₃]⟩
  · rw [hheap] at hp
    by_cases h₁ : p = s.next + 1
    · exact ⟨_, List.mem_cons_self _ _, .inr (hb ▸ h₁)⟩
    by_cases h₀ : p = s.next
    · exact ⟨_, List.mem_cons_self _ _, .inl h₀⟩
    rw [Function.update_noteq h₁, Function.update_noteq h₀] at hp
    obtain ⟨e, he, h⟩ := hs.heap_owned p hp
    exact ⟨e, List.mem_cons_of_mem _ he, h⟩
  · rw [hmpi] at hh
    by_cases h₀ : h = s.mpiNext
    · exact ⟨_, List.mem_cons_self _ _, hm ▸ h₀⟩
    rw [Function.update_noteq h₀] at hh
    obtain ⟨e, he, h'⟩ := hs.mpi_owned h hh
    exact ⟨e, List.mem_cons_of_mem _ he, h'⟩

/-- `isend` and `irecv`: on success the caller holds a new handle; on every error path the
struct and buffer it allocated are freed again. -/
theorem startRequest_inv (hs : ReqInv s reqs) (type : OcallMpiRequestType)
    (contents : List UInt8) (count : ℕ) (env : MpiReply) :
    ∃ ret req s', startRequest type contents s count 0 env = .ok (ret, req, s') ∧
      ∃ reqs', reqs'.map Prod.fst =
        (if ret = 0 then req :: reqs.map Prod.fst else reqs.map Prod.fst) ∧ ReqInv s' reqs' := by
  have hfresh₀ := hs.heap_fresh s.next le_rfl
  have hfresh₁ := hs.heap_fresh (s.next + 1) (by omega)
  have hn := Nat.pos_iff_ne_zero.1 hs.next_pos
  have hupd : Function.update s.heap s.next none = s.heap :=
    Function.update_eq_self_iff.2 hfresh₀.symm
  by_cases hc : count > intMax
  · exact ⟨mpiErrCount, 0, s, by simp [startRequest, hc], reqs, by simp [mpiErrCount], hs⟩
  cases hr : env.requestMalloc
  · exact ⟨env.errno, 0, s, by simp [startRequest, hc, HostState.malloc, hr], reqs,
      by simp [env.errno_ne_zero], hs⟩
  cases hb : env.bufMalloc
  · exact ⟨env.errno, s.next, { s with next := s.next + 1 }, by
      simp [startRequest, hc, HostState.malloc, hr, hb, HostState.setRequest, HostState.free, hn,
        hupd], reqs, by simp [env.errno_ne_zero], hs.frame rfl rfl (by simp) rfl⟩
  -- the struct and its buffer, as `MPI_Isend` or `MPI_Irecv` finds them
  let heap₂ := Function.update (Function.update (Function.update s.heap s.next
    (some (.request ⟨type, 0, 0⟩))) (s.next + 1) (some (.bytes contents))) s.next
    (some (.request ⟨type, s.next + 1, 0⟩))
  by_cases he : env.ret = 0
  · refine ⟨0, s.next, { s with
        heap := Function.update heap₂ s.next (some (.request ⟨type, s.next + 1, s.mpiNext⟩))
        next := s.next + 1 + 1
        mpi := Function.update s.mpi s.mpiNext (some ⟨type, s.next + 1, count⟩)
        mpiNext := s.mpiNext + 1 }, ?_, _, by simp,
      hs.add (r := ⟨type, s.next + 1, s.mpiNext⟩) (d := contents) rfl rfl rfl rfl ?_ rfl⟩
    · simp [startRequest, hc, HostState.malloc, hr, hb, HostState.setRequest, he, hn,
        HostState.mpiStart, heap₂]
    · funext p
      simp only [heap₂, Function.update_apply]
      split_ifs <;> first | rfl | omega
  · -- `exit_free_buf:` frees both again
    let s₂ : HostState := { s with heap := heap₂, next := s.next + 1 + 1 }
    have hf := HostState.freeRequest_eq (s := s₂) (r := ⟨type, s.next + 1, 0⟩) hn
      (by simp [s₂, heap₂]) (by simp) (by simp [s₂, heap₂]) (by simp)
    have hh : Function.update (Function.update heap₂ (s.next + 1) none) s.next none = s.heap := by
      funext p
      simp only [heap₂, Function.update_apply]
      split_ifs <;> simp_all
    refine ⟨env.ret, s.next, { s with next := s.next + 1 + 1 }, ?_, reqs, by simp [he],
      hs.frame rfl rfl (by simp only; omega) rfl⟩
    simp [startRequest, hc, HostState.malloc, hr, hb, HostState.setRequest, he, hn]
    show (fun s' => (env.ret, s.next, s')) <$> s₂.freeRequest s.next = _
    rw [hf]
    simp only [s₂, hh, Except.map_ok]

/-- The handles of the held requests are distinct, so giving one back erases its entry. -/
theorem map_fst_erase (hs : ReqInv s reqs) (he : e ∈ reqs) :
    (reqs.erase e).map Prod.fst = (reqs.map Prod.fst).erase e.1 := by
  have hinj : ∀ e' ∈ reqs, e'.1 = e.1 → e' = e := fun e' he' h =>
    by_contra fun hne => (hs.apart e' he' e he hne).1 h
  clear hs
  induction reqs with
  | nil => cases he
  | cons a l ih =>
    by_cases ha : a = e
    · subst ha; simp
    · have ha₁ : a.1 ≠ e.1 := fun h => ha (hinj a (List.mem_cons_self a l) h)
      rw [List.erase_cons_tail (by simpa using ha), List.map_cons, List.map_cons,
        List.erase_cons_tail (by simpa using ha₁),
        ih ((List.mem_cons.1 he).resolve_left (Ne.symm ha)) fun e' he' => hinj e'
          (List.mem_cons_of_mem a he')]

theorem mem_map_fst {p : ℕ} : p ∈ reqs.map Prod.fst ↔ ∃ e ∈ reqs, e.1 = p := by
  simp [List.mem_map]

/-- `ocall_mpi_wait` on a held handle, MPI reporting success. -/
theorem wait (hs : ReqInv s reqs) (he : e ∈ reqs) (count : ℕ) {env : MpiReply}
    (hr : env.ret = 0) :
    ∃ res s', ocallMpiWait s count e.1 env = .ok (res, s') ∧ ReqInv s' (reqs.erase e) := by
  obtain ⟨s₁, sc, h₁, h₂, res, s', h₃, -, hinv⟩ := hs.complete he count env.data env.getCountRet
  exact ⟨res, s', by simp [ocallMpiWait, (hs.ne_zero he).1, HostState.request_eq (hs.ne_zero he).1
    (hs.live e he).1, hr, h₁, h₂, h₃], hinv⟩

/-- `ocall_mpi_try_wait` on a held handle, MPI reporting success: with the flag set the
request is completed and given back, without it nothing changes. -/
theorem tryWait (hs : ReqInv s reqs) (he : e ∈ reqs) (count : ℕ) {env : MpiReply}
    (hr : env.ret = 0) :
    ∃ res s', ocallMpiTryWait s count e.1 env = .ok (res, env.flag, s') ∧
      ReqInv s' (if env.flag then reqs.erase e else reqs) := by
  have hreq := HostState.request_eq (hs.ne_zero he).1 (hs.live e he).1
  cases hf : env.flag
  · exact ⟨⟨0, none, []⟩, s, by simp [ocallMpiTryWait, hreq, hr, hf], hs⟩
  · obtain ⟨s₁, sc, h₁, -, res, s', h₃, -, hinv⟩ := hs.complete he count env.data env.getCountRet
    exact ⟨res, s', by simp [ocallMpiTryWait, hreq, hr, hf, h₁, h₃], hinv⟩

/-- What `MPI_Waitany` is handed for each entry: the MPI request of a held struct, and
`MPI_REQUEST_NULL` for `NULL`. -/
def mpiRequestOf (s : HostState) (p : ℕ) : ℕ :=
  match s.heap p with
  | some (.request r) => r.mpiRequest
  | _ => 0

theorem mapM_mpiRequest (hs : ReqInv s reqs) :
    ∀ {requests : List ℕ}, (∀ p ∈ requests, p = 0 ∨ p ∈ reqs.map Prod.fst) →
      requests.mapM (fun p => if p = 0 then pure 0 else OcallMpiRequest.mpiRequest <$> s.request p) =
        (.ok (requests.map (mpiRequestOf s)) : Except Fault (List ℕ))
  | [], _ => rfl
  | p :: requests, h => by
    have hp : (if p = 0 then pure 0 else OcallMpiRequest.mpiRequest <$> s.request p) =
        (.ok (mpiRequestOf s p) : Except Fault ℕ) := by
      rcases h p (List.mem_cons_self _ _) with rfl | hp
      · simp [mpiRequestOf, hs.heap_zero]
      · obtain ⟨e, he, rfl⟩ := mem_map_fst.1 hp
        simp [(hs.ne_zero he).1, HostState.request_eq (hs.ne_zero he).1 (hs.live e he).1,
          mpiRequestOf, (hs.live e he).1]
    rw [List.mapM_cons, hp, mapM_mpiRequest hs fun q hq => h q (List.mem_cons_of_mem _ hq)]
    rfl

theorem mem_of_getD_ne_zero {l : List ℕ} {i : ℕ} (h : l.getD i 0 ≠ 0) : l.getD i 0 ∈ l := by
  rw [List.getD_eq_getElem?_getD] at *
  cases hl : l[i]? with
  | none => simp [hl] at h
  | some x => simpa using List.getElem?_mem hl

theorem getD_map_mpiRequestOf (hs : ReqInv s reqs) (l : List ℕ) (i : ℕ) :
    (l.map (mpiRequestOf s)).getD i 0 = mpiRequestOf s (l.getD i 0) := by
  rw [List.getD_eq_getElem?_getD, List.getD_eq_getElem?_getD, List.getElem?_map]
  cases l[i]? <;> simp [mpiRequestOf, hs.heap_zero]

/-- `ocall_mpi_waitany` over entries each `NULL` or held, MPI reporting success: the entry
MPI reports is completed and given back; `MPI_UNDEFINED` changes nothing. -/
theorem waitany (hs : ReqInv s reqs) {requests : List ℕ}
    (hreq : ∀ p ∈ requests, p = 0 ∨ p ∈ reqs.map Prod.fst) (bufcount index : ℕ)
    {env : MpiReply} (hr : env.ret = 0) (hg : env.getCountRet = 0)
    (hi : WaitanyIndexOk requests env.index) :
    ∃ res i s', ocallMpiWaitany s bufcount requests index env = .ok (res, i, s') ∧
      ∃ reqs', reqs'.map Prod.fst = (if res.ret = -1 then reqs.map Prod.fst
        else (reqs.map Prod.fst).erase (requests.getD i 0)) ∧ ReqInv s' reqs' := by
  cases hidx : env.index with
  | none =>
    refine ⟨⟨-1, none, []⟩, index, s, ?_, reqs, by simp, hs⟩
    simp only [ocallMpiWaitany]
    rw [mapM_mpiRequest hs hreq]
    simp [hr, hidx]
  | some i =>
    rw [hidx] at hi
    obtain ⟨e, he, hpe⟩ := mem_map_fst.1 ((hreq _ (mem_of_getD_ne_zero hi)).resolve_left hi)
    have hmpi : (requests.map (mpiRequestOf s)).getD i 0 = e.2.mpiRequest := by
      rw [getD_map_mpiRequestOf hs, ← hpe, mpiRequestOf, (hs.live e he).1]
    obtain ⟨s₁, sc, h₁, h₂, res, s', h₃, hret, hinv⟩ := hs.complete he bufcount env.data env.getCountRet
    refine ⟨res, i, s', ?_, reqs.erase e, ?_, hinv⟩
    · simp only [ocallMpiWaitany]
      rw [mapM_mpiRequest hs hreq]
      simp only [List.getD_eq_getElem?_getD, List.getElem?_map] at hmpi hpe
      simp [hr, hidx, hmpi, ← hpe, h₁, h₂, h₃]
    · rw [if_neg (by rw [hret hg]; decide), ← hpe, hs.map_fst_erase he]

/-- One careful call keeps the invariant, the caller then holding the handles of the new
list. -/
theorem step (hs : ReqInv s reqs) {c : OcallMpiCall} (hc : c.Careful (reqs.map Prod.fst)) :
    ∃ s' reqs', ocallMpiStep s (reqs.map Prod.fst) c = .ok (s', reqs'.map Prod.fst) ∧
      ReqInv s' reqs' := by
  cases c with
  | isend buf count env =>
    obtain ⟨ret, req, s', h, reqs', hm, hinv⟩ := hs.startRequest_inv .send (buf.take count) count env
    exact ⟨s', reqs', by simp [ocallMpiStep, ocallMpiIsendBytes, h, hm], hinv⟩
  | irecv count env =>
    obtain ⟨ret, req, s', h, reqs', hm, hinv⟩ :=
      hs.startRequest_inv .recv (List.replicate count 0) count env
    exact ⟨s', reqs', by simp [ocallMpiStep, ocallMpiIrecvBytes, h, hm], hinv⟩
  | wait count request env =>
    obtain ⟨hp, hr, -⟩ := hc
    obtain ⟨e, he, rfl⟩ := mem_map_fst.1 hp
    obtain ⟨res, s', h, hinv⟩ := hs.wait he count hr
    exact ⟨s', reqs.erase e, by simp [ocallMpiStep, h, hs.map_fst_erase he], hinv⟩
  | waitany bufcount requests index env =>
    obtain ⟨hreq, hr, hg, hi⟩ := hc
    obtain ⟨res, i, s', h, reqs', hm, hinv⟩ := hs.waitany hreq bufcount index hr hg hi
    exact ⟨s', reqs', by simp [ocallMpiStep, h, hm], hinv⟩
  | tryWait count request env =>
    obtain ⟨hp, hr, -⟩ := hc
    obtain ⟨e, he, rfl⟩ := mem_map_fst.1 hp
    obtain ⟨res, s', h, hinv⟩ := hs.tryWait he count hr
    refine ⟨s', if env.flag then reqs.erase e else reqs, ?_, hinv⟩
    cases hf : env.flag <;> simp [ocallMpiStep, h, hf, hs.map_fst_erase he]

/-- A careful run keeps the invariant. -/
theorem run : ∀ {calls : List OcallMpiCall} {s : HostState} {reqs : List (ℕ × OcallMpiRequest)},
    ReqInv s reqs → CarefulRun s (reqs.map Prod.fst) calls →
    ∃ s' reqs', ocallMpiRun s (reqs.map Prod.fst) calls = .ok (s', reqs'.map Prod.fst) ∧
      ReqInv s' reqs'
  | [], s, reqs, hs, _ => ⟨s, reqs, rfl, hs⟩
  | _ :: _, _, _, hs, ⟨hc, hrest⟩ => by
    obtain ⟨s₁, reqs₁, h₁, hs₁⟩ := hs.step hc
    rw [h₁] at hrest
    obtain ⟨s', reqs', h', hs'⟩ := run hs₁ hrest
    exact ⟨s', reqs', by simp [ocallMpiRun, h₁, h'], hs'⟩

/-- With no handle held, nothing is allocated and no MPI request is in progress. -/
theorem empty (hs : ReqInv s []) (p : ℕ) : s.heap p = none ∧ s.mpi p = none := by
  constructor
  · cases h : s.heap p
    · rfl
    · simpa using hs.heap_owned p (by simp [h])
  · cases h : s.mpi p
    · rfl
    · simpa using hs.mpi_owned p (by simp [h])

end ReqInv

/-- Every run of careful calls, whatever `malloc` and MPI answer to the `isend` and `irecv`
calls: the adaptor never faults; every handle the caller holds points to its own live
struct and live buffer, with its MPI request in progress on that buffer; nothing else is
allocated or in progress; so once the caller holds no handle the host has nothing
allocated and MPI nothing in progress. -/
theorem ocall_mpi_careful_run {calls : List OcallMpiCall} (h : CarefulRun hostInit [] calls) :
    ∃ s reqs, ocallMpiRun hostInit [] calls = .ok (s, reqs.map Prod.fst) ∧ ReqInv s reqs ∧
      (reqs = [] → ∀ p, s.heap p = none ∧ s.mpi p = none) := by
  obtain ⟨s, reqs, hrun, hs⟩ := reqInv_init.run h
  exact ⟨s, reqs, hrun, hs, fun he => (he ▸ hs).empty⟩

theorem ocall_mpi_careful_run_four_calls :
    CarefulRun hostInit [] [.isend [1, 2, 3] 3 ⟨true, true, 0, 0, [], none, true, 12, by decide⟩,
      .irecv 4 ⟨true, true, 0, 0, [], none, true, 12, by decide⟩,
      .waitany 4 [1, 3] 0 ⟨true, true, 0, 0, [7, 8], some 1, true, 12, by decide⟩,
      .wait 3 1 ⟨true, true, 0, 0, [], none, true, 12, by decide⟩] ∧
    ∃ s reqs, ocallMpiRun hostInit [] [.isend [1, 2, 3] 3 ⟨true, true, 0, 0, [], none, true, 12, by decide⟩,
        .irecv 4 ⟨true, true, 0, 0, [], none, true, 12, by decide⟩,
        .waitany 4 [1, 3] 0 ⟨true, true, 0, 0, [7, 8], some 1, true, 12, by decide⟩,
        .wait 3 1 ⟨true, true, 0, 0, [], none, true, 12, by decide⟩] = .ok (s, reqs.map Prod.fst) ∧
      ReqInv s reqs ∧ (reqs = [] → ∀ p, s.heap p = none ∧ s.mpi p = none) :=
  have h : CarefulRun hostInit [] [.isend [1, 2, 3] 3 ⟨true, true, 0, 0, [], none, true, 12, by decide⟩,
      .irecv 4 ⟨true, true, 0, 0, [], none, true, 12, by decide⟩,
      .waitany 4 [1, 3] 0 ⟨true, true, 0, 0, [7, 8], some 1, true, 12, by decide⟩,
      .wait 3 1 ⟨true, true, 0, 0, [], none, true, 12, by decide⟩] := by decide
  ⟨h, ocall_mpi_careful_run h⟩

/-! ### Error paths -/

section ErrorPaths

variable {s : HostState} {reqs : List (ℕ × OcallMpiRequest)} {e : ℕ × OcallMpiRequest}

theorem ReqInv.freeRequest_held (hs : ReqInv s reqs) (he : e ∈ reqs) :
    s.freeRequest e.1 =
      .ok { s with heap := Function.update (Function.update s.heap e.2.buf none) e.1 none } := by
  obtain ⟨d, hd⟩ := (hs.live e he).2.1
  exact HostState.freeRequest_eq (hs.ne_zero he).1 (hs.live e he).1 (hs.ne_zero he).2.1
    (by simp [hd]) (hs.fst_ne_buf he he)

/-- When `MPI_Waitany` fails, `ocall_mpi_waitany` frees the entry at the caller's old
`*index`, which this call did not complete. From every state a careful caller reaches, an
old index at a held handle leaves that handle's struct and buffer freed while its MPI
request is still in progress, and the caller's next wait on the handle reads freed
memory. -/
theorem ocall_mpi_waitany_frees_stale_index (hs : ReqInv s reqs) {requests : List ℕ}
    (hreq : ∀ p ∈ requests, p = 0 ∨ p ∈ reqs.map Prod.fst) {index : ℕ} (he : e ∈ reqs)
    (hidx : requests.getD index 0 = e.1) (bufcount count : ℕ) {env : MpiReply}
    (hr : env.ret ≠ 0) (env' : MpiReply) :
    ∃ s', ocallMpiWaitany s bufcount requests index env = .ok (⟨env.ret, none, []⟩, index, s') ∧
      s'.heap e.1 = none ∧ s'.heap e.2.buf = none ∧ (s'.mpi e.2.mpiRequest).isSome ∧
      ocallMpiWait s' count e.1 env' = .error .useAfterFree := by
  obtain ⟨n, hn⟩ := (hs.live e he).2.2
  refine ⟨{ s with heap := Function.update (Function.update s.heap e.2.buf none) e.1 none }, ?_,
    by simp, by simp [Function.update_noteq (hs.fst_ne_buf he he).symm], by simp [hn],
    by simp [ocallMpiWait, (hs.ne_zero he).1, HostState.request]⟩
  simp only [ocallMpiWaitany]
  rw [ReqInv.mapM_mpiRequest hs hreq]
  simp [hr, hidx, hs.freeRequest_held he, -List.getD_eq_getElem?_getD]

theorem ocall_mpi_waitany_frees_stale_index_one_send :
    ReqInv ⟨Function.update (Function.update (fun _ => none) 1 (some (.request ⟨.send, 2, 1⟩))) 2
        (some (.bytes [1, 2, 3])), 3, Function.update (fun _ => none) 1 (some ⟨.send, 2, 3⟩), 2⟩
        [(1, ⟨.send, 2, 1⟩)] ∧
      (∀ p ∈ [0, 1], p = 0 ∨ p ∈ [(1, (⟨.send, 2, 1⟩ : OcallMpiRequest))].map Prod.fst) ∧
      (1, (⟨.send, 2, 1⟩ : OcallMpiRequest)) ∈ [(1, ⟨.send, 2, 1⟩)] ∧
      [0, 1].getD 1 0 = 1 ∧ (5 : ℤ) ≠ 0 ∧
      ∃ s', ocallMpiWaitany ⟨Function.update (Function.update (fun _ => none) 1
          (some (.request ⟨.send, 2, 1⟩))) 2 (some (.bytes [1, 2, 3])), 3,
          Function.update (fun _ => none) 1 (some ⟨.send, 2, 3⟩), 2⟩ 8 [0, 1] 1
          ⟨true, true, 5, 0, [], none, true, 12, by decide⟩ = .ok (⟨5, none, []⟩, 1, s') ∧
        s'.heap 1 = none ∧ s'.heap 2 = none ∧ (s'.mpi 1).isSome ∧
        ocallMpiWait s' 3 1 ⟨true, true, 0, 0, [], none, true, 12, by decide⟩ = .error .useAfterFree :=
  have hs : ReqInv ⟨Function.update (Function.update (fun _ => none) 1
      (some (.request ⟨.send, 2, 1⟩))) 2 (some (.bytes [1, 2, 3])), 3,
      Function.update (fun _ => none) 1 (some ⟨.send, 2, 3⟩), 2⟩ [(1, ⟨.send, 2, 1⟩)] :=
    reqInv_init.add (r := ⟨.send, 2, 1⟩) (d := [1, 2, 3]) rfl rfl rfl rfl rfl rfl
  have hreq : ∀ p ∈ [0, 1], p = 0 ∨ p ∈ [(1, (⟨.send, 2, 1⟩ : OcallMpiRequest))].map Prod.fst := by
    decide
  have he : (1, (⟨.send, 2, 1⟩ : OcallMpiRequest)) ∈ [(1, ⟨.send, 2, 1⟩)] := List.mem_singleton_self _
  ⟨hs, hreq, he, rfl, by decide, ocall_mpi_waitany_frees_stale_index hs hreq he (rfl : [0, 1].getD 1 0 = 1) 8 3
    (by decide : (5 : ℤ) ≠ 0)
    ⟨true, true, 0, 0, [], none, true, 12, by decide⟩⟩

/-- `ocall_mpi_cancel` frees the struct and the buffer of a held request although
`MPI_Cancel` only marked its MPI request. From every state a careful caller reaches, the
request stays in progress on a freed buffer, and MPI completing it, as it must before the
request is gone, touches freed memory. -/
theorem ocall_mpi_cancel_frees_in_progress (hs : ReqInv s reqs) (he : e ∈ reqs)
    (env : MpiReply) :
    ∃ s', ocallMpiCancel s e.1 env = .ok (env.ret, s') ∧ s'.heap e.1 = none ∧
      s'.heap e.2.buf = none ∧ (s'.mpi e.2.mpiRequest).isSome ∧
      ∀ data, s'.mpiComplete e.2.mpiRequest data = .error .useAfterFree := by
  obtain ⟨n, hn⟩ := (hs.live e he).2.2
  have hbuf : Function.update (Function.update s.heap e.2.buf none) e.1 none e.2.buf = none := by
    simp [Function.update_noteq (hs.fst_ne_buf he he).symm]
  refine ⟨{ s with heap := Function.update (Function.update s.heap e.2.buf none) e.1 none }, ?_,
    by simp, hbuf, by simp [hn], fun data => ?_⟩
  · simp [ocallMpiCancel, HostState.request_eq (hs.ne_zero he).1 (hs.live e he).1,
      hs.freeRequest_held he]
  · simp only [HostState.mpiComplete, hn, hbuf]

theorem ocall_mpi_cancel_frees_in_progress_one_recv :
    ReqInv ⟨Function.update (Function.update (fun _ => none) 1 (some (.request ⟨.recv, 2, 1⟩))) 2
        (some (.bytes [0, 0])), 3, Function.update (fun _ => none) 1 (some ⟨.recv, 2, 2⟩), 2⟩
        [(1, ⟨.recv, 2, 1⟩)] ∧
      (1, (⟨.recv, 2, 1⟩ : OcallMpiRequest)) ∈ [(1, ⟨.recv, 2, 1⟩)] ∧
      ∃ s', ocallMpiCancel ⟨Function.update (Function.update (fun _ => none) 1
          (some (.request ⟨.recv, 2, 1⟩))) 2 (some (.bytes [0, 0])), 3,
          Function.update (fun _ => none) 1 (some ⟨.recv, 2, 2⟩), 2⟩ 1
          ⟨true, true, 0, 0, [], none, true, 12, by decide⟩ = .ok (0, s') ∧ s'.heap 1 = none ∧
        s'.heap 2 = none ∧ (s'.mpi 1).isSome ∧
        ∀ data, s'.mpiComplete 1 data = .error .useAfterFree :=
  have hs : ReqInv ⟨Function.update (Function.update (fun _ => none) 1
      (some (.request ⟨.recv, 2, 1⟩))) 2 (some (.bytes [0, 0])), 3,
      Function.update (fun _ => none) 1 (some ⟨.recv, 2, 2⟩), 2⟩ [(1, ⟨.recv, 2, 1⟩)] :=
    reqInv_init.add (r := ⟨.recv, 2, 1⟩) (d := [0, 0]) rfl rfl rfl rfl rfl rfl
  have he : (1, (⟨.recv, 2, 1⟩ : OcallMpiRequest)) ∈ [(1, ⟨.recv, 2, 1⟩)] := List.mem_singleton_self _
  ⟨hs, he, ocall_mpi_cancel_frees_in_progress hs he ⟨true, true, 0, 0, [], none, true, 12, by decide⟩⟩

end ErrorPaths

end DistributedSgxSort
