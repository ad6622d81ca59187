import TrtLlm.Scheduler.ChunkBounds

/-!
# The micro-batch scheduler

`PyMicroBatchScheduler.schedule` walks over the active requests once, charges encoder and generation requests
(and, without chunking, context requests) to the token budget as it meets them, and then divides what is left
among the context requests it met.
-/

namespace TrtLlm.Scheduler

structure ContextChunkingConfig where
  chunkingPolicy : ChunkingPolicy
  chunkUnitSize : ℕ
  chunkUnitSize_pos : 0 < chunkUnitSize

structure PyMicroBatchScheduler where
  maxBatchSize : ℕ
  maxNumTokens : Option ℕ
  ctxChunkConfig : Option ContextChunkingConfig
  noScheduleUntilState : LlmRequestState
  noScheduleAfterState : LlmRequestState

structure MicroBatch where
  encoderRequests : List LlmRequest
  contextRequests : List LlmRequest
  generationRequests : List LlmRequest
  contextsToBeChunked : List LlmRequest
  batchNumTokens : ℤ
  scheduledReqSize : ℕ
  scheduledBeamWidth : ℕ
  numChunkedComputeTokens : ℤ
  allContextRequestsFit : Bool

def MicroBatch.empty : MicroBatch := ⟨[], [], [], [], 0, 0, 0, 0, true⟩

/-- What the body of the main loop does with a request: `continue`, `break`, or fall through. -/
inductive Visit where
  | skip
  | stop
  | take (batch : MicroBatch)

structure ScheduledBatch where
  encoderRequests : List LlmRequest
  contextRequests : List LlmRequest
  generationRequests : List LlmRequest
  deriving DecidableEq, Repr

def checkLimit (limit : Option ℤ) (n : ℤ) (error : ℤ → ℤ → ScheduleError) : Except ScheduleError Unit :=
  match limit with
  | none => .ok ()
  | some m => if m < n then .error (error n m) else .ok ()

/-- The order of `_get_lora_task_id`: requests without an adapter first. -/
def loraTaskIdLE (a b : LlmRequest) : Bool :=
  match a.loraTaskId, b.loraTaskId with
  | none, _ => true
  | some _, none => false
  | some i, some j => i ≤ j

def sortByLoraTaskId (reqs : List LlmRequest) : List LlmRequest := reqs.insertionSort fun a b => loraTaskIdLE a b

namespace PyMicroBatchScheduler

variable (s : PyMicroBatchScheduler)

def tokenLimit : Option ℤ := s.maxNumTokens.map Nat.cast

def maxContextLength : Option ℤ := s.tokenLimit

variable (batch : MicroBatch) (req : LlmRequest)

def visitEncoder : Except ScheduleError Visit :=
  let reqNumTokens : ℤ := req.encoderOutputLen
  match checkLimit s.maxContextLength reqNumTokens .encoderTokensExceedLimit with
  | .error e => .error e
  | .ok () =>
    if exceeds s.tokenLimit (batch.batchNumTokens + reqNumTokens) then .ok .stop
    else .ok (.take { batch with
      encoderRequests := batch.encoderRequests ++ [req]
      batchNumTokens := batch.batchNumTokens + reqNumTokens })

def fullContextCompute : ℤ :=
  max 1 (reuseAdjustedCompute req.numTokens req.reusable req.contextRemainingLength + req.numDraftTokens)

def visitFullContext : Except ScheduleError Visit :=
  let computeTokens := fullContextCompute req
  match checkLimit s.maxContextLength computeTokens .contextTokensExceedLimit with
  | .error e => .error e
  | .ok () =>
    if exceeds s.tokenLimit (batch.batchNumTokens + computeTokens) then .ok .stop
    else .ok (.take { batch with
      contextRequests := batch.contextRequests ++ [req]
      batchNumTokens := batch.batchNumTokens + computeTokens })

def visitChunkedContext : Visit :=
  let req := req.withContextChunkSize req.contextRemainingLength
  let draftTokens := if req.isLastContextChunk && req.hasDraftTokens then (req.numDraftTokens : ℤ) else 0
  let contextCompute := reuseAdjustedCompute req.contextChunkSize req.reusable req.contextRemainingLength
  let computeTokens := contextCompute + draftTokens
  .take { batch with
    contextsToBeChunked := batch.contextsToBeChunked ++ [req]
    numChunkedComputeTokens := batch.numChunkedComputeTokens + (s.maxContextLength.elim computeTokens (min · computeTokens))
    allContextRequestsFit := batch.allContextRequestsFit && !exceeds s.maxContextLength computeTokens }

def visitGeneration : Visit :=
  let reqNumTokens : ℤ := req.beamWidth + req.numDraftTokens
  if exceeds s.tokenLimit (batch.batchNumTokens + reqNumTokens) then .stop
  else
    let scheduledBeamWidth := if batch.scheduledBeamWidth = 0 then req.beamWidth else batch.scheduledBeamWidth
    if scheduledBeamWidth ≠ req.beamWidth then .skip
    else .take { batch with
      generationRequests := batch.generationRequests ++ [req]
      batchNumTokens := batch.batchNumTokens + reqNumTokens
      scheduledBeamWidth := scheduledBeamWidth }

def visit : Except ScheduleError Visit :=
  if req.state = .encoderInit then s.visitEncoder batch req
  else if req.state = .contextInit then
    match s.ctxChunkConfig with
    | none => s.visitFullContext batch req
    | some _ => .ok (s.visitChunkedContext batch req)
  else .ok (s.visitGeneration batch req)

/-- The requests the main loop passes over: in flight, waiting for encoder output, or not in a schedulable
state. -/
def isPassedOver (inflightRequestIds : List ℕ) (req : LlmRequest) : Bool :=
  inflightRequestIds.contains req.requestId || req.isWaitingForEncoderOutput
    || !req.inStateRange s.noScheduleUntilState s.noScheduleAfterState

def scan (inflightRequestIds : List ℕ) (batch : MicroBatch) : List LlmRequest → Except ScheduleError MicroBatch
  | [] => .ok batch
  | req :: rest =>
    if s.isPassedOver inflightRequestIds req then scan inflightRequestIds batch rest
    else
      match s.visit batch req with
      | .error e => .error e
      | .ok .skip => scan inflightRequestIds batch rest
      | .ok .stop => .ok batch
      | .ok (.take batch') =>
        let batch' := { batch' with scheduledReqSize := batch'.scheduledReqSize + 1 }
        if s.maxBatchSize ≤ batch'.scheduledReqSize then .ok batch' else scan inflightRequestIds batch' rest

/-- The context requests fit as they are, so that no chunk sizes have to be chosen. -/
def allContextRequestsFit : Bool :=
  batch.allContextRequestsFit
    && !(s.tokenLimit.any fun m => decide (m - batch.batchNumTokens < batch.numChunkedComputeTokens))
    && !(s.ctxChunkConfig.any fun config => config.chunkingPolicy = .forceChunk)

def chunkLimits (config : ContextChunkingConfig) (batch : MicroBatch) : ChunkLimits where
  capacity := s.tokenLimit.map fun m => m - batch.batchNumTokens
  maxContextLength := s.maxContextLength
  unitSize := config.chunkUnitSize
  unitSize_pos := config.chunkUnitSize_pos

def chooseChunks (fuel : ℕ) (batch : MicroBatch) : Except ScheduleError (List LlmRequest) :=
  match s.ctxChunkConfig with
  | none => .ok batch.contextsToBeChunked
  | some config =>
    if s.allContextRequestsFit batch || batch.contextsToBeChunked.isEmpty then .ok batch.contextsToBeChunked
    else setCtxRequestsChunkSize (s.chunkLimits config batch) fuel config.chunkingPolicy batch.contextsToBeChunked

/-- `_sort_requests` for context requests: by adapter, last chunks at the end when there are chunks. -/
def sortContextRequests (chunksPresent : Bool) (reqs : List LlmRequest) : List LlmRequest :=
  if chunksPresent then
    sortByLoraTaskId (reqs.filter fun r => !r.isLastContextChunk) ++ sortByLoraTaskId (reqs.filter (·.isLastContextChunk))
  else sortByLoraTaskId reqs

def schedule (fuel : ℕ) (activeRequests : List LlmRequest) (inflightRequestIds : List ℕ) :
    Except ScheduleError ScheduledBatch :=
  match s.scan inflightRequestIds .empty activeRequests with
  | .error e => .error e
  | .ok batch =>
    match s.chooseChunks fuel batch with
    | .error e => .error e
    | .ok chunked =>
      let contextRequests := batch.contextRequests ++ chunked.filter fun r => decide (0 < r.contextChunkSize)
      .ok {
        encoderRequests := sortByLoraTaskId batch.encoderRequests
        contextRequests := sortContextRequests (!s.allContextRequestsFit batch) contextRequests
        generationRequests := sortByLoraTaskId batch.generationRequests }

end PyMicroBatchScheduler

theorem sortByLoraTaskId_perm (reqs : List LlmRequest) : (sortByLoraTaskId reqs).Perm reqs := List.perm_insertionSort _ reqs

theorem sortContextRequests_perm (chunksPresent : Bool) (reqs : List LlmRequest) :
    (PyMicroBatchScheduler.sortContextRequests chunksPresent reqs).Perm reqs := by
  unfold PyMicroBatchScheduler.sortContextRequests
  split_ifs
  · refine ((sortByLoraTaskId_perm _).append (sortByLoraTaskId_perm _)).trans ?_
    exact List.perm_append_comm.trans (List.filter_append_perm _ reqs)
  · exact sortByLoraTaskId_perm reqs

end TrtLlm.Scheduler
