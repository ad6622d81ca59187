import Mathlib
import TrtLlm.Lib.Sweep
import TrtLlm.Scheduler.Request

/-!
# Chunk sizes for context requests

`PyMicroBatchScheduler._set_ctx_requests_chunk_size`: when not all context requests fit, each gets a chunk of its
remaining context, by one of three policies, and the draft tokens that do not fit behind a last chunk are dropped. The
budget is counted in tokens the model computes: tokens served from the cache are free.
-/

namespace TrtLlm.Scheduler

def reuseAdjustedCompute (chunkSize reusable contextRemaining : ℤ) : ℤ :=
  if reusable ≤ 0 then chunkSize
  else if reusable + chunkSize < contextRemaining then chunkSize
  else max 0 (contextRemaining - reusable)

inductive ChunkingPolicy where
  | equalProgress
  | firstComeFirstServed
  | forceChunk
  deriving DecidableEq, Repr

structure ChunkLimits where
  capacity : Option ℤ
  maxContextLength : Option ℤ
  unitSize : ℕ
  unitSize_pos : 0 < unitSize

namespace LlmRequest

variable (req : LlmRequest)

/-- The tokens the model computes for a chunk of the given size, with the reuse credit clamped to the remaining
context. -/
def computeOf (chunkSize : ℤ) : ℤ :=
  reuseAdjustedCompute chunkSize (min req.reusable req.contextRemainingLength : ℕ) req.contextRemainingLength

def chunkCompute : ℤ := req.computeOf req.contextChunkSize

/-- `_get_forced_context_chunk_size`: up to the next expected snapshot point. -/
def forcedContextChunkSize : ℕ :=
  match (req.expectSnapshotPoints.filter (req.contextCurrentPosition < ·)).min? with
  | none => req.contextRemainingLength
  | some nextPoint => min nextPoint req.promptLen - req.contextCurrentPosition

end LlmRequest

structure Progress where
  numComputeTokens : ℤ
  numTokensSingleLoop : ℤ
  deriving DecidableEq, Repr

variable (l : ChunkLimits)

def equalProgressStep (p : Progress) (req : LlmRequest) : Except ScheduleError (Progress × LlmRequest) :=
  let pastSize := req.contextChunkSize
  let suggestedSize := min (pastSize + l.unitSize) req.contextRemainingLength
  let req' := req.withContextChunkSize suggestedSize
  let actualSize := req'.contextChunkSize
  let computeIncrement := req.computeOf actualSize - req.computeOf pastSize
  if exceeds l.capacity (p.numComputeTokens + computeIncrement) then
    .ok (p, req'.withContextChunkSize pastSize)
  else if exceeds l.maxContextLength actualSize then
    .ok (p, req'.withContextChunkSize pastSize)
  else
    .ok (⟨p.numComputeTokens + computeIncrement, p.numTokensSingleLoop + (actualSize - pastSize)⟩, req')

def equalProgressLoop (l : ChunkLimits) (fuel : ℕ) (p : Progress) (reqs : List LlmRequest) :
    Except ScheduleError (List LlmRequest) :=
  if l.capacity.any (fun c => decide (c ≤ p.numComputeTokens)) || decide (p.numTokensSingleLoop ≤ 0) then
    .ok reqs
  else
    match fuel with
    | 0 => .error .outOfFuel
    | fuel + 1 =>
      match sweep (equalProgressStep l) { p with numTokensSingleLoop := 0 } reqs with
      | .error e => .error e
      | .ok (p', reqs') => equalProgressLoop l fuel p' reqs'

def chunkEqualProgress (fuel : ℕ) (reqs : List LlmRequest) : Except ScheduleError (List LlmRequest) :=
  equalProgressLoop l fuel ⟨0, 1⟩ reqs

variable (currentComputeCapacity : Option ℤ) (req : LlmRequest)

/-- The chunk that `_chunk_fcfs` gives to one request before it is aligned; an absent capacity is the source's
`float("inf")`. -/
def fcfsTarget : ℤ :=
  let suggestedSize : ℤ := req.contextRemainingLength
  let computeCost := req.computeOf suggestedSize
  let byCapacity :=
    match currentComputeCapacity with
    | none => suggestedSize
    | some c => if c < computeCost then c else suggestedSize
  match l.maxContextLength with
  | none => byCapacity
  | some m => if m < req.computeOf byCapacity then min m suggestedSize else byCapacity

def fcfsSize : ℤ :=
  let actualSize := fcfsTarget l currentComputeCapacity req
  if actualSize < req.contextRemainingLength then actualSize / l.unitSize * l.unitSize else actualSize

def fcfsStep : Except ScheduleError (Option ℤ × LlmRequest) :=
  match req.setContextChunkSize (fcfsSize l currentComputeCapacity req) with
  | .error e => .error e
  | .ok req' => .ok (currentComputeCapacity.map fun c => c - req.computeOf req'.contextChunkSize, req')

variable (reqs : List LlmRequest)

def chunkFcfs : Except ScheduleError (List LlmRequest) := (sweep (fcfsStep l) l.capacity reqs).map Prod.snd

def forcedSize (totalTokens : ℤ) (req : LlmRequest) : ℤ :=
  let chunkSize : ℤ := req.forcedContextChunkSize
  let chunkSize :=
    match l.maxContextLength with
    | none => chunkSize
    | some m => if m < chunkSize then m / l.unitSize * l.unitSize else chunkSize
  match l.capacity with
  | none => chunkSize
  | some c =>
    if c < totalTokens + chunkSize then
      min chunkSize (max 0 (c - totalTokens)) / l.unitSize * l.unitSize
    else chunkSize

def forcedStep (totalTokens : ℤ) (req : LlmRequest) : Except ScheduleError (ℤ × LlmRequest) :=
  match req.setContextChunkSize (forcedSize l totalTokens req) with
  | .error e => .error e
  | .ok req' => .ok (totalTokens + req'.contextChunkSize, req')

def chunkForced : Except ScheduleError (List LlmRequest) :=
  match l.maxContextLength with
  | some m =>
    if m < l.unitSize then .error (.forcedChunkExceedsMaxContextLength l.unitSize m) else run
  | none => run
where
  run : Except ScheduleError (List LlmRequest) :=
    match sweep (forcedStep l) 0 reqs with
    | .error e => .error e
    | .ok (totalTokens, reqs') =>
      if exceeds l.capacity totalTokens then .error .forcedChunksExceedCapacity else .ok reqs'

/-- The room behind the chunk that draft tokens may fill: no further block, and no more than the maximal
context length. -/
def remainingSpaceForDraftTokens : ℤ :=
  let remainder : ℤ := req.contextChunkSize % l.unitSize
  let remainingSpace := if remainder = 0 then 0 else l.unitSize - remainder
  match l.maxContextLength with
  | none => remainingSpace
  | some m => min remainingSpace (m - req.contextChunkSize)

def keptDrafts (l : ChunkLimits) (numCtxTokens : ℤ) (req : LlmRequest) : ℤ :=
  let keptDrafts := min (req.numDraftTokens : ℤ) (max 0 (remainingSpaceForDraftTokens l req))
  match l.capacity with
  | none => keptDrafts
  | some c => max 0 (min keptDrafts (c - numCtxTokens))

/-- The tokens of a batch are counted only against a capacity. -/
def charge (numCtxTokens tokens : ℤ) : ℤ :=
  if l.capacity.isSome then numCtxTokens + tokens else numCtxTokens

def fitDraftTokensStep (numCtxTokens : ℤ) (req : LlmRequest) : Except ScheduleError (ℤ × LlmRequest) :=
  if req.isLastContextChunk && req.hasDraftTokens then
    let kept := keptDrafts l numCtxTokens req
    let numCtxTokens' := charge l numCtxTokens kept
    let draftDiscard := req.numDraftTokens - kept
    if 0 < draftDiscard then (req.discardDraftTokens draftDiscard).map fun req' => (numCtxTokens', req')
    else .ok (numCtxTokens', req)
  else .ok (numCtxTokens, req)

def fitDraftTokens : Except ScheduleError (List LlmRequest) :=
  (sweep (fitDraftTokensStep l) (reqs.map LlmRequest.chunkCompute).sum reqs).map Prod.snd

/-- The chunk sizes that a policy gives, before draft tokens are fitted. -/
def assignChunks (fuel : ℕ) (policy : ChunkingPolicy) (reqs : List LlmRequest) :
    Except ScheduleError (List LlmRequest) :=
  let reqs := reqs.map (·.withContextChunkSize 0)
  match policy with
  | .equalProgress => chunkEqualProgress l fuel reqs
  | .firstComeFirstServed => chunkFcfs l reqs
  | .forceChunk => chunkForced l reqs

def setCtxRequestsChunkSize (fuel : ℕ) (policy : ChunkingPolicy) (reqs : List LlmRequest) :
    Except ScheduleError (List LlmRequest) :=
  (assignChunks l fuel policy reqs).bind (fitDraftTokens l)

/-! ### The compute cost of a chunk -/

namespace LlmRequest

variable {req req' : LlmRequest}

theorem computeOf_eq_min {chunk : ℤ} (hchunk : chunk ≤ req.contextRemainingLength) :
    req.computeOf chunk = min chunk (req.contextRemainingLength - (min req.reusable req.contextRemainingLength : ℕ)) := by
  unfold computeOf reuseAdjustedCompute
  split_ifs <;> omega

theorem computeOf_le {chunk : ℤ} (hchunk : chunk ≤ req.contextRemainingLength) : req.computeOf chunk ≤ chunk := by
  rw [computeOf_eq_min hchunk]
  exact min_le_left _ _

theorem computeOf_mono {chunk chunk' : ℤ} (hle : chunk ≤ chunk') (hchunk : chunk' ≤ req.contextRemainingLength) :
    req.computeOf chunk ≤ req.computeOf chunk' := by
  rw [computeOf_eq_min hchunk, computeOf_eq_min (hle.trans hchunk)]
  omega

theorem computeOf_zero : req.computeOf 0 = 0 := by
  rw [computeOf_eq_min (by omega)]
  omega

theorem SameRequest.computeOf_eq (h : SameRequest req req') (chunk : ℤ) : req'.computeOf chunk = req.computeOf chunk := by
  unfold LlmRequest.computeOf
  rw [h.reusable_eq, h.contextRemainingLength_eq]

end LlmRequest

end TrtLlm.Scheduler
