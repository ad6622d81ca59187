import TrtLlm.Scheduler.Capacity
import TrtLlm.Scheduler.MicroBatch

/-!
# The scheduler for KV cache manager V2

`KVCacheV2Scheduler` allocates KV cache while it schedules. A first phase visits generation requests and suspends
started requests from the tail of the list when an allocation fails; a second phase visits the context and encoder
requests put aside. The KV cache manager is an arbitrary machine that answers the calls.
-/

namespace TrtLlm.Scheduler

/-- What `prepare_context` does with a request: block reuse may move the context position. -/
structure Prepared (req : LlmRequest) where
  success : Bool
  contextCurrentPosition : ℕ
  prepopulatedPromptLen : ℕ
  contextChunkSize : ℕ
  position_le : contextCurrentPosition ≤ req.promptLen

def Prepared.request {req : LlmRequest} (p : Prepared req) : LlmRequest := { req with
    contextCurrentPosition := p.contextCurrentPosition
    prepopulatedPromptLen := p.prepopulatedPromptLen
    contextChunkSize := p.contextChunkSize
    position_le := p.position_le }

/-- `KVCacheManagerV2`, with the managers of draft layers and of cross attention, as a machine with states `κ`. -/
structure KVCacheManagerV2 (κ : Type) where
  isRequestActive : κ → ℕ → Bool
  prepareContext : κ → (req : LlmRequest) → Prepared req × κ
  resizeContext : κ → LlmRequest → ℕ → Bool × κ
  prepareDisaggGenInit : κ → LlmRequest → Bool × κ
  tryAllocateGeneration : κ → LlmRequest → Bool × κ
  suspendRequest : κ → LlmRequest → κ
  /-- The reservation of cross blocks for a decoder context. -/
  reserveCrossContext : κ → LlmRequest → Bool × κ

/-- What the scheduler reads of a request on the Python side. -/
structure PyRequestData where
  /-- `is_generation_only_request() and py_decoding_iter == 0` -/
  awaitsFirstToken : Bool
  /-- `multimodal_embed_mask_cumsum`, when `mm_bidirectional_blocks` is set; it has an entry for every prompt token. -/
  multimodalEmbedMaskCumsum : Option (ℕ → ℤ)
  needsCrossContextAllocation : Bool

structure KVCacheV2Scheduler (κ : Type) where
  maxNumTokens : Option ℕ
  maxNumRequests : ℕ
  kvCacheManager : KVCacheManagerV2 κ
  hasCrossKvCacheManager : Bool
  peftCacheManager : Option PeftCacheManager
  ctxChunkConfig : Option ContextChunkingConfig
  noScheduleUntilState : LlmRequestState
  noScheduleAfterState : LlmRequestState
  enablePrefixAwareScheduling : Bool
  prioritizeFirstTokenGen : Bool
  pyData : ℕ → PyRequestData

inductive V2Error where
  | encoderRequestNeedsCrossKvCache (requestId : ℕ)
  | encoderTokensExceedLimit (reqTokens maxContextLength : ℕ)
  | contextTokensExceedLimit (contextTokens maxContextLength : ℕ)
  | bidirectionalBlockTooLong (requestId blockSize maxContextLength : ℕ)
  | deadlock (numGenCandidates : ℕ)
  deriving DecidableEq, Repr

def V2Error.message : V2Error → String
  | .encoderRequestNeedsCrossKvCache id => s!"Encoder-init request {id} requires a cross_kv_cache_manager."
  | .encoderTokensExceedLimit n m => s!"The number of encoder tokens ({n}) exceeds the limit value ({m})"
  | .contextTokensExceedLimit n m => s!"Context tokens ({n}) exceeds limit ({m})"
  | .bidirectionalBlockTooLong id n m =>
    s!"req {id}: bidirectional multimodal block of {n} tokens exceeds max_context_length={m}. " ++
    "The block must fit in a single chunk to preserve bidirectional attention; deferring would livelock. " ++
    s!"Increase max_num_tokens to at least {n}."
  | .deadlock n =>
    s!"V2 scheduler deadlock: {n} generation request(s) active but none could be scheduled or evicted. " ++
    "KV cache pool is likely exhausted with no host cache tier for suspend/resume offload. " ++
    "Configure kv_cache_config.host_cache_size or increase kv_cache_config.max_tokens."

/-! ### Budgets -/

structure BudgetTracker where
  maxNumTokens : Option ℕ
  maxNumRequests : ℕ
  numTokens : ℕ
  numRequests : ℕ
  peftCacheManager : Option PeftCacheManager
  claimedPeftPages : ℕ
  seenPeftTaskIds : List ℕ

namespace BudgetTracker

variable (b : BudgetTracker)

def requestsFull : Bool := decide (b.maxNumRequests ≤ b.numRequests)

def canFitTokens (numTokens : ℕ) : Bool := !(b.maxNumTokens.any fun m => decide (m < b.numTokens + numTokens))

def remainingTokens : Option ℤ := b.maxNumTokens.map fun m => (m : ℤ) - b.numTokens

variable (req : LlmRequest)

def commitPeft (peftPages : ℕ) : BudgetTracker := { b with
    claimedPeftPages := b.claimedPeftPages + peftPages
    seenPeftTaskIds := req.loraTaskId.toList ++ b.seenPeftTaskIds }

def commit (numTokens peftPages : ℕ) : BudgetTracker :=
  let b := { b with numTokens := b.numTokens + numTokens, numRequests := b.numRequests + 1 }
  if 0 < peftPages then b.commitPeft req peftPages else b

def unseenTask : Option ℕ := req.loraTaskId.filter fun id => !b.seenPeftTaskIds.contains id

/-- `None` when the pages do not fit. -/
def peftPagesNeeded : Option ℕ :=
  match b.peftCacheManager, b.unseenTask req with
  | some peft, some _ =>
    let required := peft.determineNumPages req
    if peft.maxDevicePages < b.claimedPeftPages + required then none else some required
  | _, _ => some 0

def preClaimPeft : BudgetTracker :=
  match b.peftCacheManager, b.unseenTask req with
  | some peft, some _ => b.commitPeft req (peft.determineNumPages req)
  | _, _ => b

end BudgetTracker

/-! ### Multimodal blocks -/

/-- Position `i` of the prompt belongs to a multimodal block; the cumulative sum includes its own position. -/
def isMmPosition (cumsum : ℕ → ℤ) : ℕ → Bool
  | 0 => cumsum 0 = 1
  | i + 1 => cumsum (i + 1) - cumsum i = 1

/-- The forward walk: the first position from `pos` on, within `steps`, that is not in a block. -/
def blockEnd (cumsum : ℕ → ℤ) : (steps pos : ℕ) → ℕ
  | 0, pos => pos
  | steps + 1, pos => if isMmPosition cumsum pos then blockEnd cumsum steps (pos + 1) else pos

/-- The backward walk: the first position of the block that ends before `pos`. -/
def blockStart (cumsum : ℕ → ℤ) : ℕ → ℕ
  | 0 => 0
  | pos + 1 => if isMmPosition cumsum pos then blockStart cumsum pos else pos + 1

namespace KVCacheV2Scheduler

variable {κ : Type} (s : KVCacheV2Scheduler κ)

def maxContextLength : Option ℕ := s.maxNumTokens

def chunkUnitSize : ℕ := s.ctxChunkConfig.elim 0 (·.chunkUnitSize)

def capped (limit : Option ℕ) (n : ℕ) : ℕ := limit.elim n (min n)

def fits (limit : Option ℕ) (n : ℕ) : Bool := limit.all fun m => decide (n ≤ m)

/-- The end of a chunk that reaches past the block, and the one that stops before it. -/
def snapChunk (remainingBudget : Option ℕ) (contextRemaining lo chunkSize blockStart blockEnd : ℕ) : ℕ :=
  let unitSize := s.chunkUnitSize
  let promptLen := lo + contextRemaining
  let upBlockEnd :=
    if 0 < unitSize ∧ blockEnd < promptLen then (blockEnd + unitSize - 1) / unitSize * unitSize else blockEnd
  let upChunkSize := min upBlockEnd promptLen - lo
  if fits remainingBudget upChunkSize && fits s.maxContextLength upChunkSize
      && decide (upChunkSize ≤ contextRemaining) && decide (chunkSize < upChunkSize) then
    upChunkSize
  else
    let downBlockStart := if 0 < unitSize then blockStart / unitSize * unitSize else blockStart
    if downBlockStart ≤ lo then 0 else downBlockStart - lo

def alignChunkToMmBlock (req : LlmRequest) (chunkSize : ℕ) (remainingBudget : Option ℕ) (contextRemaining : ℕ) :
    Except V2Error ℕ :=
  match (s.pyData req.requestId).multimodalEmbedMaskCumsum with
  | none => .ok chunkSize
  | some cumsum =>
    let lo := req.contextCurrentPosition
    let endAbs := lo + chunkSize
    let promptLen := lo + contextRemaining
    if promptLen ≤ endAbs || endAbs = 0 then .ok chunkSize
    else if !(isMmPosition cumsum endAbs && isMmPosition cumsum (endAbs - 1)) then .ok chunkSize
    else
      let blockEnd := blockEnd cumsum (promptLen - endAbs) endAbs
      let blockStart := blockStart cumsum endAbs
      let blockSize := blockEnd - blockStart
      if !fits s.maxContextLength blockSize then
        .error (.bidirectionalBlockTooLong req.requestId blockSize (s.maxContextLength.getD 0))
      else .ok (s.snapChunk remainingBudget contextRemaining lo chunkSize blockStart blockEnd)

/-! ### One request -/

/-- `_try_schedule_context`: the scheduled request, its tokens and the chunking flag. -/
inductive ContextAction where
  | scheduled (req : LlmRequest) (tokens : ℕ) (chunking : Bool)
  | skip
  | stop

variable (budget : BudgetTracker)

def tryScheduleEncoder (req : LlmRequest) : Except V2Error (Option ℕ) :=
  if !s.hasCrossKvCacheManager then .error (.encoderRequestNeedsCrossKvCache req.requestId)
  else
    let reqTokens := req.encoderOutputLen
    if !budget.canFitTokens reqTokens then .ok none
    else if !fits s.maxContextLength reqTokens then
      .error (.encoderTokensExceedLimit reqTokens (s.maxContextLength.getD 0))
    else .ok (some reqTokens)

variable (kv : κ) (req : LlmRequest)

/-- The end of both ways to schedule a context: the cross blocks, without which the request is suspended. -/
def tryScheduleCrossContext (tokens : ℕ) (chunking : Bool) : ContextAction × κ :=
  if !(s.pyData req.requestId).needsCrossContextAllocation then (.scheduled req tokens chunking, kv)
  else if !s.hasCrossKvCacheManager then (.stop, s.kvCacheManager.suspendRequest kv req)
  else
    match s.kvCacheManager.reserveCrossContext kv req with
    | (true, kv) => (.scheduled req tokens chunking, kv)
    | (false, kv) => (.skip, s.kvCacheManager.suspendRequest kv req)

/-- `assert max_context_length is None or n <= max_context_length` behind the check of the budget. -/
def checkContextTokens (contextTokens draftLen : ℕ) : Except V2Error Bool :=
  if !budget.canFitTokens (contextTokens + draftLen) then .ok false
  else if !fits s.maxContextLength contextTokens then
    .error (.contextTokensExceedLimit contextTokens (s.maxContextLength.getD 0))
  else .ok true

def tryScheduleContextFull : Except V2Error (ContextAction × κ) :=
  let prePrepareContextTokens := req.contextRemainingLength
  let draftLen := req.numDraftTokens
  let check (aware : Bool) (contextTokens : ℕ) :=
    if s.enablePrefixAwareScheduling = aware then s.checkContextTokens budget contextTokens draftLen else .ok true
  match check false prePrepareContextTokens with
  | .error e => .error e
  | .ok false => .ok (.stop, kv)
  | .ok true =>
    let (prepared, kv) := s.kvCacheManager.prepareContext kv req
    if !prepared.success then .ok (.stop, kv)
    else
      let req := prepared.request
      let contextTokens := req.contextRemainingLength
      match check true contextTokens with
      | .error e => .error e
      | .ok false => .ok (.stop, kv)
      | .ok true =>
        let reqTokens := draftLen +
          if s.enablePrefixAwareScheduling then contextTokens else prePrepareContextTokens
        match s.kvCacheManager.resizeContext kv req (contextTokens + draftLen) with
        | (false, kv) => .ok (.skip, kv)
        | (true, kv) => .ok (s.tryScheduleCrossContext kv req reqTokens false)

def isForcedContextChunkBoundary (chunkSize : ℕ) : Bool :=
  let nextPosition := req.contextCurrentPosition + chunkSize
  decide (req.promptLen ≤ nextPosition) || req.expectSnapshotPoints.contains nextPosition

variable (config : ContextChunkingConfig)

def budgetChunkSize (remainingBudget : Option ℕ) (prePrepareContextRemaining : ℕ) (req : LlmRequest) : ℕ :=
  let forceChunk := config.chunkingPolicy = .forceChunk
  let contextRemaining := req.contextRemainingLength
  let budgetContextRemaining :=
    if forceChunk ∨ s.enablePrefixAwareScheduling then contextRemaining else prePrepareContextRemaining
  let chunkSize := if forceChunk then req.forcedContextChunkSize else capped remainingBudget budgetContextRemaining
  let chunkSize := capped remainingBudget (capped s.maxContextLength chunkSize)
  if chunkSize < budgetContextRemaining ∧ ¬(forceChunk ∧ isForcedContextChunkBoundary req chunkSize) then
    chunkSize / config.chunkUnitSize * config.chunkUnitSize
  else chunkSize

/-- There is no budget left, or less than the unit that a chunk is rounded to. -/
def underMinBudget (remainingBudget : Option ℤ) : Bool :=
  remainingBudget.any fun r =>
    decide (r ≤ 0 ∨ (config.chunkingPolicy ≠ .forceChunk ∧ r < (config.chunkUnitSize : ℤ)))

def scheduleChunk (chunkSize : ℕ) : ContextAction × κ :=
  let req := req.withContextChunkSize chunkSize
  let draftLen := if req.isLastContextChunk then req.numDraftTokens else 0
  match s.kvCacheManager.resizeContext kv req (req.contextChunkSize + draftLen) with
  | (false, kv) => (.skip, kv)
  | (true, kv) =>
    s.tryScheduleCrossContext kv req (chunkSize + draftLen) (req.contextChunkSize < req.contextRemainingLength)

def tryScheduleContextChunked (budget : BudgetTracker) (kv : κ) (req : LlmRequest) :
    Except V2Error (ContextAction × κ) :=
  let prePrepareContextRemaining := req.contextRemainingLength
  if underMinBudget config budget.remainingTokens then .ok (.skip, kv)
  else
    let remainingBudget := budget.remainingTokens.map Int.toNat
    let (prepared, kv) := s.kvCacheManager.prepareContext kv req
    if !prepared.success then .ok (.skip, kv)
    else
      let req := prepared.request
      let chunkSize := s.budgetChunkSize config remainingBudget prePrepareContextRemaining req
      if chunkSize = 0 then .ok (.skip, kv)
      else
        match s.alignChunkToMmBlock req chunkSize remainingBudget req.contextRemainingLength with
        | .error e => .error e
        | .ok 0 => .ok (.skip, kv)
        | .ok (chunkSize + 1) => .ok (s.scheduleChunk kv req (chunkSize + 1))

def tryScheduleContext : Except V2Error (ContextAction × κ) :=
  match s.ctxChunkConfig with
  | none => s.tryScheduleContextFull budget kv req
  | some config => s.tryScheduleContextChunked config budget kv req

/-! ### Eviction -/

def isStartedRequest : Bool := (req.isContextInitState && !req.isFirstContextChunk) || req.isGenerationInProgressState

def isEvictable : Bool := isStartedRequest req && s.kvCacheManager.isRequestActive kv req.requestId

/-- What the search for victims leaves: the number of requests behind the current one that stay in the loop. -/
structure Eviction (κ : Type) where
  behind : ℕ
  success : Bool
  evicted : List LlmRequest
  kv : κ

/-- `_try_evict_for_gen`, over the requests behind the current one, the last first. A victim cuts the list off where it
stood; a request that is no victim stays unless a victim is found before it. -/
def tryEvictForGen (req : LlmRequest) (kv : κ) (evicted : List LlmRequest) (behind : ℕ) :
    List LlmRequest → Eviction κ
  | [] => ⟨behind, false, evicted, kv⟩
  | candidate :: rest =>
    if s.isEvictable kv candidate then
      let evicted := evicted ++ [candidate]
      match s.kvCacheManager.tryAllocateGeneration (s.kvCacheManager.suspendRequest kv candidate) req with
      | (true, kv) => ⟨rest.length, true, evicted, kv⟩
      | (false, kv) => tryEvictForGen req kv evicted rest.length rest
    else tryEvictForGen req kv evicted behind rest

/-! ### The loop -/

structure LoopState (κ : Type) where
  budget : BudgetTracker
  kv : κ
  scheduledEncoder : List LlmRequest
  scheduledCtx : List LlmRequest
  scheduledGen : List LlmRequest
  evicted : List LlmRequest
  disaggCandidates : List LlmRequest
  pendingCtx : List LlmRequest
  scheduledBeamWidth : ℕ
  hasChunking : Bool

inductive Gate (κ : Type) where
  | stop
  | pass (st : LoopState κ)
  | generation (peftPages : ℕ)

variable (inflightRequestIds : List ℕ) (st : LoopState κ)

def gate (req : LlmRequest) : Gate κ :=
  if inflightRequestIds.contains req.requestId then .pass st
  else if req.isDisaggGenerationInitState then
    match st.budget.peftPagesNeeded req with
    | none => .stop
    | some peftPages =>
      match s.kvCacheManager.prepareDisaggGenInit st.kv req with
      | (false, kv) => .pass { st with kv := kv }
      | (true, kv) => .pass { st with
          kv := kv
          disaggCandidates := st.disaggCandidates ++ [req]
          budget := if 0 < peftPages then st.budget.commitPeft req peftPages else st.budget }
  else if st.budget.requestsFull then .stop
  else if !req.inStateRange s.noScheduleUntilState s.noScheduleAfterState then .pass st
  else if req.state = .encoderInit ∨ req.state = .contextInit then
    .pass { st with pendingCtx := st.pendingCtx ++ [req] }
  else
    match st.budget.peftPagesNeeded req with
    | none => .stop
    | some peftPages => .generation peftPages

/-- How a visit to a generation request ends: `break`, or go on with so many requests behind it. -/
inductive GenVisit (κ : Type) where
  | stop (st : LoopState κ)
  | next (behind : ℕ) (st : LoopState κ)

/-- The allocation, with eviction when it fails, and self-eviction when that fails too. -/
def allocateGeneration (req : LlmRequest) (behind : List LlmRequest) : Bool × ℕ × LoopState κ :=
  match s.kvCacheManager.tryAllocateGeneration st.kv req with
  | (true, kv) => (true, behind.length, { st with kv := kv })
  | (false, kv) =>
    let eviction := s.tryEvictForGen req kv st.evicted behind.length behind.reverse
    let st := { st with kv := eviction.kv, evicted := eviction.evicted }
    if eviction.success then (true, eviction.behind, st)
    else if s.kvCacheManager.isRequestActive st.kv req.requestId then
      (false, eviction.behind, { st with kv := s.kvCacheManager.suspendRequest st.kv req, evicted := st.evicted ++ [req] })
    else (false, eviction.behind, st)

/-- `_try_schedule_generation` and what the loop does with its answer. -/
def visitGeneration (req : LlmRequest) (peftPages : ℕ) (behind : List LlmRequest) : GenVisit κ :=
  let reqTokens := req.beamWidth + req.numDraftTokens
  if !st.budget.canFitTokens reqTokens then .stop st
  else if st.scheduledBeamWidth ≠ 0 ∧ st.scheduledBeamWidth ≠ req.beamWidth then .next behind.length st
  else
    match s.allocateGeneration { st with scheduledBeamWidth := req.beamWidth } req behind with
    | (false, _, st) => .stop st
    | (true, behind, st) => .next behind { st with
        scheduledGen := st.scheduledGen ++ [req]
        budget := st.budget.commit req reqTokens peftPages }

/-- Phase 1, with `req_it_end` as the number of requests that are still in the loop. -/
def generationPhase (inflightRequestIds : List ℕ) (st : LoopState κ) : ℕ → List LlmRequest → LoopState κ
  | 0, _ => st
  | _ + 1, [] => st
  | window + 1, req :: rest =>
    match s.gate inflightRequestIds st req with
    | .stop => st
    | .pass st => generationPhase inflightRequestIds st window rest
    | .generation peftPages =>
      match s.visitGeneration st req peftPages (rest.take window) with
      | .stop st => st
      | .next window st => generationPhase inflightRequestIds st window rest

inductive ContextVisit (κ : Type) where
  | stop (st : LoopState κ)
  | next (st : LoopState κ)

def visitPendingCtx (req : LlmRequest) : Except V2Error (ContextVisit κ) :=
  if st.budget.requestsFull then .ok (.stop st)
  else
    match st.budget.peftPagesNeeded req with
    | none => .ok (.next st)
    | some peftPages =>
      if req.isEncoderInitState then
        match s.tryScheduleEncoder st.budget req with
        | .error e => .error e
        | .ok none => .ok (.stop st)
        | .ok (some tokens) => .ok (.next { st with
            scheduledEncoder := st.scheduledEncoder ++ [req]
            budget := st.budget.commit req tokens peftPages })
      else
        match s.tryScheduleContext st.budget st.kv req with
        | .error e => .error e
        | .ok (.stop, kv) => .ok (.stop { st with kv := kv })
        | .ok (.skip, kv) => .ok (.next { st with kv := kv })
        | .ok (.scheduled req' tokens chunking, kv) => .ok (.next { st with
            kv := kv
            hasChunking := st.hasChunking || chunking
            scheduledCtx := st.scheduledCtx ++ [req']
            budget := st.budget.commit req tokens peftPages })

def contextPhase (st : LoopState κ) : List LlmRequest → Except V2Error (LoopState κ)
  | [] => .ok st
  | req :: rest =>
    match s.visitPendingCtx st req with
    | .error e => .error e
    | .ok (.stop st) => .ok st
    | .ok (.next st) => contextPhase st rest

variable (activeRequests : List LlmRequest)

/-- The opt-in sort that puts requests without a first token in front; it is stable. -/
def requestsList : List LlmRequest :=
  if s.prioritizeFirstTokenGen then
    activeRequests.filter (fun req => (s.pyData req.requestId).awaitsFirstToken)
      ++ activeRequests.filter (fun req => !(s.pyData req.requestId).awaitsFirstToken)
  else activeRequests

/-- The state before phase 1; requests about to complete still hold their adapters. -/
def initialState (requests : List LlmRequest) : LoopState κ where
  budget := (requests.filter (·.isGenerationToCompleteState)).foldl BudgetTracker.preClaimPeft
    ⟨s.maxNumTokens, s.maxNumRequests, 0, 0, s.peftCacheManager, 0, []⟩
  kv := kv
  scheduledEncoder := []
  scheduledCtx := []
  scheduledGen := []
  evicted := []
  disaggCandidates := []
  pendingCtx := []
  scheduledBeamWidth := 0
  hasChunking := false

def afterGeneration : LoopState κ :=
  let requests := s.requestsList activeRequests
  s.generationPhase inflightRequestIds (s.initialState kv requests) requests.length requests

def genCandidates : List LlmRequest :=
  activeRequests.filter fun req => req.isGenerationInProgressState && !req.isGenerationToCompleteState
    && !inflightRequestIds.contains req.requestId

def scheduleLoop : Except V2Error (LoopState κ) :=
  let st := s.afterGeneration kv inflightRequestIds activeRequests
  match s.contextPhase st st.pendingCtx with
  | .error e => .error e
  | .ok st =>
    let numGenCandidates := (genCandidates inflightRequestIds activeRequests).length
    if st.scheduledGen.isEmpty && st.scheduledCtx.isEmpty && decide (0 < numGenCandidates) && st.evicted.isEmpty then
      .error (.deadlock numGenCandidates)
    else .ok st

structure SchedulerOutput where
  encoderRequests : List LlmRequest
  contextRequests : List LlmRequest
  generationRequests : List LlmRequest
  pausedRequests : List LlmRequest
  fittingDisaggGenInitRequests : List LlmRequest
  numFittingRequests : ℕ
  deriving DecidableEq, Repr

def dropWaitingForEncoderOutput : List LlmRequest := activeRequests.filter fun req => !req.isWaitingForEncoderOutput

def scheduleRequest : Except V2Error SchedulerOutput :=
  match s.scheduleLoop kv inflightRequestIds (dropWaitingForEncoderOutput activeRequests) with
  | .error e => .error e
  | .ok st => .ok {
      encoderRequests := sortByLoraTaskId st.scheduledEncoder
      contextRequests := PyMicroBatchScheduler.sortContextRequests st.hasChunking st.scheduledCtx
      generationRequests := sortByLoraTaskId st.scheduledGen
      pausedRequests := st.evicted
      fittingDisaggGenInitRequests := st.disaggCandidates
      numFittingRequests := st.scheduledEncoder.length + st.scheduledCtx.length + st.scheduledGen.length }

end KVCacheV2Scheduler

/-- A manager for small runs: the requests in `active` have their cache on the GPU, generation is allocated for these
only, and everything else succeeds. -/
def KVCacheManagerV2.roomy : KVCacheManagerV2 (List ℕ) where
  isRequestActive active id := active.contains id
  prepareContext active req :=
    (⟨true, req.contextCurrentPosition, req.prepopulatedPromptLen, req.contextChunkSize, req.position_le⟩, active)
  resizeContext active _ _ := (true, active)
  prepareDisaggGenInit active _ := (true, active)
  tryAllocateGeneration active req := (active.contains req.requestId, active)
  suspendRequest active req := active.filter (· ≠ req.requestId)
  reserveCrossContext active _ := (true, active)

def KVCacheV2Scheduler.small (maxNumTokens : ℕ) : KVCacheV2Scheduler (List ℕ) where
  maxNumTokens := some maxNumTokens
  maxNumRequests := 8
  kvCacheManager := .roomy
  hasCrossKvCacheManager := false
  peftCacheManager := none
  ctxChunkConfig := some ⟨.firstComeFirstServed, 2, Nat.two_pos⟩
  noScheduleUntilState := .contextInit
  noScheduleAfterState := .generationToComplete
  enablePrefixAwareScheduling := true
  prioritizeFirstTokenGen := false
  pyData _ := ⟨false, none, false⟩

end TrtLlm.Scheduler
