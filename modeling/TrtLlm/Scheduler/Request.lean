import Mathlib

/-!
# Requests as the schedulers see them

The part of `LlmRequest` that the capacity and micro-batch schedulers read and write. The Python schedulers
work on the C++ object through its bindings, so its accessors are the C++ ones.
-/

namespace TrtLlm.Scheduler

inductive LlmRequestState where
  | disaggTransError
  | unknown
  | encoderInit
  | disaggContextWaitScheduler
  | disaggGenerationInit
  | disaggGenerationTransInProgress
  | contextInit
  | disaggContextInitAndTrans
  | disaggGenerationTransComplete
  | generationInProgress
  | generationToComplete
  | generationComplete
  | disaggContextTransInProgress
  | disaggContextComplete
  | disaggGenerationWaitTokens
  deriving DecidableEq, Repr

/-- The value of the enumerator: schedulers compare states by it. -/
def LlmRequestState.value : LlmRequestState → ℤ
  | .disaggTransError => -1
  | .unknown => 0
  | .encoderInit => 1
  | .disaggContextWaitScheduler => 7
  | .disaggGenerationInit => 8
  | .disaggGenerationTransInProgress => 9
  | .contextInit => 10
  | .disaggContextInitAndTrans => 11
  | .disaggGenerationTransComplete => 12
  | .generationInProgress => 13
  | .generationToComplete => 14
  | .generationComplete => 20
  | .disaggContextTransInProgress => 21
  | .disaggContextComplete => 22
  | .disaggGenerationWaitTokens => 23

/-- What a scheduler may raise. `outOfFuel` is no exception of the source: the bound given to the model of a `while`
loop was too small. -/
inductive ScheduleError where
  | encoderTokensExceedLimit (reqNumTokens maxContextLength : ℤ)
  | contextTokensExceedLimit (computeTokens maxContextLength : ℤ)
  | forcedChunkExceedsMaxContextLength (unitSize maxContextLength : ℤ)
  | forcedChunksExceedCapacity
  | negativeChunkSize (size : ℤ)
  | discardNonPositive (numTokensToDiscard : ℤ)
  | discardTooMany (numTokensToDiscard numDraftTokens : ℤ)
  | outOfFuel
  deriving DecidableEq, Repr

def ScheduleError.message : ScheduleError → String
  | .encoderTokensExceedLimit n m => s!"The number of encoder tokens ({n}) exceeds the limit value ({m})"
  | .contextTokensExceedLimit n m => s!"Context compute tokens ({n}) exceeds limit ({m})"
  | .forcedChunkExceedsMaxContextLength n m =>
    s!"The forced chunk size ({n}) exceeds the max context length ({m})"
  | .forcedChunksExceedCapacity => ""
  | .negativeChunkSize n => s!"The chunk size of context ({n}) can't be negative."
  | .discardNonPositive n => s!"Can only discard a positive amount of draft tokens, got {n}"
  | .discardTooMany n m => s!"Can't discard more draft tokens ({n}) than exists ({m})."
  | .outOfFuel => ""

def exceeds (limit : Option ℤ) (n : ℤ) : Bool := limit.any fun m => decide (m < n)

@[simp] theorem exceeds_none (n : ℤ) : exceeds none n = false := rfl

@[simp] theorem exceeds_some (m n : ℤ) : exceeds (some m) n = decide (m < n) := rfl

theorem exceeds_eq_false {limit : Option ℤ} {n : ℤ} : exceeds limit n = false ↔ ∀ m ∈ limit, n ≤ m := by
  cases limit <;> simp

/-- A request. The context position never passes the end of the prompt; a beam width of zero is refused with the
sampling configuration. -/
structure LlmRequest where
  requestId : ℕ
  state : LlmRequestState
  promptLen : ℕ
  contextCurrentPosition : ℕ
  prepopulatedPromptLen : ℕ
  contextChunkSize : ℕ
  estimatedReusableTokens : ℕ
  numTokens : ℕ
  numDraftTokens : ℕ
  beamWidth : ℕ
  encoderOutputLen : ℕ
  hasEncoderUniqueTokens : Bool
  loraTaskId : Option ℕ
  expectSnapshotPoints : List ℕ
  /-- `py_encoder_output_ready_event`, with what its `query()` answers. -/
  encoderOutputReadyEvent : Option Bool
  position_le : contextCurrentPosition ≤ promptLen
  beamWidth_pos : 0 < beamWidth
  deriving DecidableEq, Repr

namespace LlmRequest

def arrived (requestId promptLen : ℕ) : LlmRequest where
  requestId := requestId
  state := .contextInit
  promptLen := promptLen
  contextCurrentPosition := 0
  prepopulatedPromptLen := 0
  contextChunkSize := promptLen
  estimatedReusableTokens := 0
  numTokens := promptLen
  numDraftTokens := 0
  beamWidth := 1
  encoderOutputLen := 0
  hasEncoderUniqueTokens := false
  loraTaskId := none
  expectSnapshotPoints := []
  encoderOutputReadyEvent := none
  position_le := Nat.zero_le _
  beamWidth_pos := Nat.zero_lt_one

variable (req : LlmRequest)

def isEncoderInitState : Bool := req.state = .encoderInit

def isContextInitState : Bool := req.state = .contextInit ∨ req.state = .disaggContextInitAndTrans

def isGenerationInProgressState : Bool :=
  req.state = .generationInProgress ∨ req.state = .generationToComplete ∨ req.state = .disaggGenerationTransComplete

def isGenerationToCompleteState : Bool := req.state = .generationToComplete

def isDisaggGenerationInitState : Bool := req.state = .disaggGenerationInit

def isDisaggGenerationTransmissionInProgress : Bool := req.state = .disaggGenerationTransInProgress

def isDisaggGenerationTransmissionComplete : Bool := req.state = .disaggGenerationTransComplete

def contextRemainingLength : ℕ := req.promptLen - req.contextCurrentPosition

def isFirstContextChunk : Bool := req.contextCurrentPosition = req.prepopulatedPromptLen

def isLastContextChunk : Bool :=
  req.isDisaggGenerationInitState || req.isDisaggGenerationTransmissionComplete
    || decide (req.contextCurrentPosition + req.contextChunkSize = req.promptLen)

def hasDraftTokens : Bool := req.numDraftTokens ≠ 0

def isWaitingForEncoderOutput : Bool := req.isContextInitState && req.encoderOutputReadyEvent = some false

/-- The reuse credit: only the first chunk of a context is served from cached blocks. -/
def reusable : ℕ := if req.isFirstContextChunk then req.estimatedReusableTokens else 0

/-- The setter of `context_chunk_size` for a size known to be non-negative: it clamps to what remains. -/
def withContextChunkSize (size : ℕ) : LlmRequest := { req with contextChunkSize := min size req.contextRemainingLength }

def setContextChunkSize (size : ℤ) : Except ScheduleError LlmRequest :=
  if size < 0 then .error (.negativeChunkSize size) else .ok (req.withContextChunkSize size.toNat)

def discardDraftTokens (numTokensToDiscard : ℤ) : Except ScheduleError LlmRequest :=
  if numTokensToDiscard ≤ 0 then .error (.discardNonPositive numTokensToDiscard)
  else if (req.numDraftTokens : ℤ) < numTokensToDiscard then
    .error (.discardTooMany numTokensToDiscard req.numDraftTokens)
  else .ok { req with numDraftTokens := (req.numDraftTokens - numTokensToDiscard).toNat }

/-- The request has reached `until` but not `after`. -/
def inStateRange (until_ after : LlmRequestState) : Bool := until_.value ≤ req.state.value ∧ req.state.value < after.value

/-- The two requests are one object before and after scheduling: only its chunk size and its draft tokens may
differ. -/
def SameRequest (req req' : LlmRequest) : Prop :=
  req' = { req with contextChunkSize := req'.contextChunkSize, numDraftTokens := req'.numDraftTokens }

variable {req} {req' req'' : LlmRequest}

theorem SameRequest.refl (req : LlmRequest) : SameRequest req req := rfl

theorem SameRequest.trans (h : SameRequest req req') (h' : SameRequest req' req'') : SameRequest req req'' := by
  unfold SameRequest at *
  rw [h', h]

theorem sameRequest_withContextChunkSize (req : LlmRequest) (n : ℕ) : SameRequest req (req.withContextChunkSize n) := rfl

namespace SameRequest

variable (h : SameRequest req req')

include h

theorem requestId_eq : req'.requestId = req.requestId := by rw [h]

theorem contextCurrentPosition_eq : req'.contextCurrentPosition = req.contextCurrentPosition := by rw [h]

theorem contextRemainingLength_eq : req'.contextRemainingLength = req.contextRemainingLength := by
  rw [h]; rfl

theorem reusable_eq : req'.reusable = req.reusable := by
  rw [h]; rfl

theorem expectSnapshotPoints_eq : req'.expectSnapshotPoints = req.expectSnapshotPoints := by rw [h]

end SameRequest

@[simp] theorem withContextChunkSize_contextChunkSize (n : ℕ) :
    (req.withContextChunkSize n).contextChunkSize = min n req.contextRemainingLength := rfl

@[simp] theorem withContextChunkSize_contextRemainingLength (n : ℕ) :
    (req.withContextChunkSize n).contextRemainingLength = req.contextRemainingLength := rfl

end LlmRequest

end TrtLlm.Scheduler
