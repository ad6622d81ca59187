import TrtLlm.Scheduler.Request

/-!
# The capacity scheduler that never evicts

`PyCapacityScheduler` with the policy `GUARANTEED_NO_EVICT`. A first pass reserves the blocks that generation requests
need to complete and sorts the others; a second pass admits disaggregated-init requests, then context and encoder
requests, in order, while their blocks fit in what is left.
-/

namespace TrtLlm.Scheduler

/-- A KV cache manager as the scheduler asks it. A cached reuse summary is what the manager's own walk would give, so
only the zero summary, used without prefix-aware scheduling, changes an answer. -/
structure KvCacheManager where
  numFreeBlocks : List (ℕ × ℤ)
  enableBlockReuse : Bool
  isVariableWindow : Bool
  firstNewBlock : LlmRequest → Option ℕ
  remainingBlocksToCompletion : LlmRequest → ℕ → ℕ
  remainingBlocksWithoutReuse : LlmRequest → ℕ → ℕ

structure PeftCacheManager where
  maxDevicePages : ℕ
  determineNumPages : LlmRequest → ℕ

/-- `PyCapacityScheduler` with `GUARANTEED_NO_EVICT`. -/
structure CapacityScheduler where
  maxNumRequests : ℕ
  kvCacheManager : KvCacheManager
  crossKvCacheManager : Option KvCacheManager
  peftCacheManager : Option PeftCacheManager
  noScheduleUntilState : LlmRequestState
  noScheduleAfterState : LlmRequestState
  enablePrefixAwareScheduling : Bool

/-- C++ raises `crossKvCacheManagerRequired` before it looks at a request, Python `encoderRequestNeedsCrossKvCache` for
one; `missingEncoderTokens` is the failed access to an absent value in C++. -/
inductive CapacityError where
  | encoderRequestNeedsCrossKvCache (requestId : ℕ)
  | crossKvCacheManagerRequired
  | missingEncoderTokens
  deriving DecidableEq, Repr

structure CapacityOutput where
  fittingRequests : List LlmRequest
  fittingDisaggGenInitRequests : List LlmRequest
  pausedRequests : List LlmRequest
  deriving DecidableEq, Repr

structure Admission where
  scheduledRequests : List LlmRequest
  availableBlocks : List (ℕ × ℤ)
  availableCrossBlocks : Option (List (ℕ × ℤ))
  claimedPeftPages : ℤ
  availablePeftPages : ℤ
  uniqTaskIds : List ℕ
  newlyContributedContextBlocks : List ℕ
  newlyContributedCrossContextBlocks : List ℕ

/-! ### Blocks -/

def enoughAvailableBlocks (needed : ℕ → ℕ) (availableBlocks : List (ℕ × ℤ)) : Bool :=
  availableBlocks.all fun entry => decide ((needed entry.1 : ℤ) ≤ entry.2)

def decrementReservedBlocks (needed : ℕ → ℕ) (availableBlocks : List (ℕ × ℤ)) : List (ℕ × ℤ) :=
  availableBlocks.map fun entry => (entry.1, entry.2 - needed entry.1)

namespace CapacityScheduler

variable (s : CapacityScheduler)

/-- `_disabled_prefix_summary` returns the zero summary. -/
def usesZeroSummary (req : LlmRequest) : Bool :=
  !s.enablePrefixAwareScheduling && req.isContextInitState && req.isFirstContextChunk

def neededBlocks (manager : KvCacheManager) (req : LlmRequest) : ℕ → ℕ :=
  if s.usesZeroSummary req then manager.remainingBlocksWithoutReuse req else manager.remainingBlocksToCompletion req

variable (adm : Admission) (req : LlmRequest)

def enoughBlocks : Bool := enoughAvailableBlocks (s.neededBlocks s.kvCacheManager req) adm.availableBlocks

def enoughCrossBlocks : Bool :=
  match s.crossKvCacheManager, adm.availableCrossBlocks with
  | some cross, some available => enoughAvailableBlocks (s.neededBlocks cross req) available
  | _, _ => true

def reserveBlocks : Admission := { adm with
    availableBlocks := decrementReservedBlocks (s.neededBlocks s.kvCacheManager req) adm.availableBlocks
    availableCrossBlocks := s.crossKvCacheManager.bind fun cross =>
      adm.availableCrossBlocks.map (decrementReservedBlocks (s.neededBlocks cross req)) }

/-! ### Adapters -/

/-- `_get_peft_task_info`: the adapter, when it is not one already counted, and its pages. -/
def newTask (uniqTaskIds : List ℕ) (req : LlmRequest) : Option ℕ := req.loraTaskId.filter fun id => !uniqTaskIds.contains id

def requiredPeftPages (peft : PeftCacheManager) (uniqTaskIds : List ℕ) (req : LlmRequest) : ℕ :=
  if (newTask uniqTaskIds req).isSome then peft.determineNumPages req else 0

/-- The first pass counts the pages of a generation request whether they fit or not. -/
def claimPeftPages : Admission :=
  match s.peftCacheManager with
  | none => adm
  | some peft =>
    { adm with
      claimedPeftPages := adm.claimedPeftPages + requiredPeftPages peft adm.uniqTaskIds req
      uniqTaskIds := (newTask adm.uniqTaskIds req).toList ++ adm.uniqTaskIds }

/-- The second pass takes the pages of a request when they fit. -/
def takePeftPages : Option Admission :=
  match s.peftCacheManager with
  | none => some adm
  | some peft =>
    let neededPeftPages : ℤ := requiredPeftPages peft adm.uniqTaskIds req
    if adm.availablePeftPages < neededPeftPages then none
    else some { adm with
      availablePeftPages := adm.availablePeftPages - neededPeftPages
      uniqTaskIds := (newTask adm.uniqTaskIds req).toList ++ adm.uniqTaskIds }

/-! ### Skipping requests that wait for a block another request computes -/

def isSkippingRelevant : Bool :=
  s.enablePrefixAwareScheduling && !s.kvCacheManager.isVariableWindow && !(s.crossKvCacheManager.any (·.isVariableWindow))

/-- The first block of the request that is not in the cache, when the manager reuses blocks. -/
def newContextBlock : Option ℕ :=
  if s.kvCacheManager.enableBlockReuse then s.kvCacheManager.firstNewBlock req else none

def newCrossContextBlock : Option ℕ :=
  match s.crossKvCacheManager with
  | none => none
  | some cross => if cross.enableBlockReuse && req.hasEncoderUniqueTokens then cross.firstNewBlock req else none

variable (activeRequests : List LlmRequest)

def prefillContributedBlocks : List ℕ × List ℕ :=
  let executing := activeRequests.filter fun req => req.isContextInitState && !req.isFirstContextChunk
  (executing.filterMap s.newContextBlock, executing.filterMap s.newCrossContextBlock)

def isContributed (block : Option ℕ) (contributed : List ℕ) : Bool := block.any contributed.contains

/-- `_beneficial_to_skip`: a request that is not skipped registers its new blocks. -/
def beneficialToSkip : Bool × Admission :=
  if req.isContextInitState && req.isFirstContextChunk then
    let block := s.newContextBlock req
    let crossBlock := s.newCrossContextBlock req
    if isContributed block adm.newlyContributedContextBlocks
        || isContributed crossBlock adm.newlyContributedCrossContextBlocks then
      (true, adm)
    else
      (false, { adm with
        newlyContributedContextBlocks := block.toList ++ adm.newlyContributedContextBlocks
        newlyContributedCrossContextBlocks := crossBlock.toList ++ adm.newlyContributedCrossContextBlocks })
  else (false, adm)

/-! ### The two passes -/

def canBeScheduled : Bool :=
  req.isDisaggGenerationInitState
    || (!req.isWaitingForEncoderOutput && req.inStateRange s.noScheduleUntilState s.noScheduleAfterState)

structure Pending where
  disGenInitRequests : List LlmRequest
  requests : List LlmRequest
  deriving DecidableEq, Repr

def firstPass (adm : Admission) (pending : Pending) : List LlmRequest → Admission × Pending
  | [] => (adm, pending)
  | req :: rest =>
    if !s.canBeScheduled req then firstPass adm pending rest
    else if s.maxNumRequests ≤ adm.scheduledRequests.length then (adm, pending)
    else if req.isGenerationInProgressState then
      let adm := { adm with scheduledRequests := adm.scheduledRequests ++ [req] }
      firstPass (s.claimPeftPages (s.reserveBlocks adm req) req) pending rest
    else if req.isDisaggGenerationInitState then
      firstPass adm { pending with disGenInitRequests := pending.disGenInitRequests ++ [req] } rest
    else firstPass adm { pending with requests := pending.requests ++ [req] } rest

/-- How the body of the second loop ends: the next request, or `break`. -/
inductive Verdict where
  | next (adm : Admission)
  | stop (adm : Admission)

/-- `scheduled_requests.append(req)` behind the check of the adapter pages; `continue` when they do not fit. -/
def schedule : Admission :=
  match s.takePeftPages adm req with
  | none => adm
  | some adm => { adm with scheduledRequests := adm.scheduledRequests ++ [req] }

def scheduleAndReserve : Admission :=
  match s.takePeftPages adm req with
  | none => adm
  | some adm => s.reserveBlocks { adm with scheduledRequests := adm.scheduledRequests ++ [req] } req

/-- The part of the second loop behind the check for skipping. -/
def admitRequest : Verdict :=
  if s.maxNumRequests ≤ adm.scheduledRequests.length then .stop adm
  else if req.isEncoderInitState then .next (s.schedule adm req)
  else if req.isContextInitState || req.isDisaggGenerationInitState then
    if s.enoughBlocks adm req && s.enoughCrossBlocks adm req then .next (s.scheduleAndReserve adm req)
    else .stop adm
  else .next adm

def visitPending : Except CapacityError Verdict :=
  if req.isEncoderInitState && s.crossKvCacheManager.isNone then
    .error (.encoderRequestNeedsCrossKvCache req.requestId)
  else
    let (skipped, adm) :=
      if s.isSkippingRelevant && !req.isDisaggGenerationInitState then s.beneficialToSkip adm req else (false, adm)
    if skipped then .ok (.next adm) else .ok (s.admitRequest adm req)

def secondPass (adm : Admission) : List LlmRequest → Except CapacityError Admission
  | [] => .ok adm
  | req :: rest =>
    match s.visitPending adm req with
    | .error e => .error e
    | .ok (.stop adm) => .ok adm
    | .ok (.next adm) => secondPass adm rest

def start : Admission :=
  let contributed := if s.isSkippingRelevant then s.prefillContributedBlocks activeRequests else ([], [])
  { scheduledRequests := []
    availableBlocks := s.kvCacheManager.numFreeBlocks
    availableCrossBlocks := s.crossKvCacheManager.map (·.numFreeBlocks)
    claimedPeftPages := 0
    availablePeftPages := s.peftCacheManager.elim 0 fun peft => (peft.maxDevicePages : ℤ)
    uniqTaskIds := []
    newlyContributedContextBlocks := contributed.1
    newlyContributedCrossContextBlocks := contributed.2 }

def runPolicy : Except CapacityError Admission :=
  let (adm, pending) := s.firstPass (s.start activeRequests) ⟨[], []⟩ activeRequests
  let adm := { adm with availablePeftPages := adm.availablePeftPages - adm.claimedPeftPages }
  (s.secondPass adm pending.disGenInitRequests).bind fun adm => s.secondPass adm pending.requests

def classifyOutput (scheduledRequests : List LlmRequest) : CapacityOutput where
  fittingRequests := scheduledRequests.filter fun req => !req.isDisaggGenerationInitState
  fittingDisaggGenInitRequests := scheduledRequests.filter (·.isDisaggGenerationInitState)
  pausedRequests := []

def scheduleRequest : Except CapacityError CapacityOutput :=
  (s.runPolicy activeRequests).map fun adm => classifyOutput adm.scheduledRequests

end CapacityScheduler

/-- A manager with one window for small runs, in which every request needs as many blocks as its prompt is long. -/
def promptPool (free : ℤ) : KvCacheManager where
  numFreeBlocks := [(1, free)]
  enableBlockReuse := false
  isVariableWindow := false
  firstNewBlock _ := none
  remainingBlocksToCompletion req _ := req.promptLen
  remainingBlocksWithoutReuse req _ := req.promptLen

end TrtLlm.Scheduler
