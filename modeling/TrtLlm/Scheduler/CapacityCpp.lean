import TrtLlm.Scheduler.Capacity

/-!
# The C++ scheduler that never evicts, and its Python mirror

`GuaranteedNoEvictScheduler::impl<false>` treats a request whose KV cache is being received otherwise than the Python
policy: it counts the request, its blocks and its adapter pages although it does not return it. Without such requests
the two take the same decision.
-/

namespace TrtLlm.Scheduler.Cpp

open List LlmRequest

open CapacityScheduler (Pending isContributed requiredPeftPages newTask classifyOutput)

/-- The local variables of the C++ function: those of the Python one, and the number of admitted requests. -/
structure Admission extends Scheduler.Admission where
  numAdmittedRequests : ℕ

variable (s : CapacityScheduler) (adm : Admission) (req : LlmRequest)

/-- `claimPeftPagesForRequest`: adapters are remembered with or without a manager. -/
def claimPeftPages : Admission := { adm with
    claimedPeftPages := adm.claimedPeftPages +
      s.peftCacheManager.elim 0 fun peft => (requiredPeftPages peft adm.uniqTaskIds req : ℤ)
    uniqTaskIds := (newTask adm.uniqTaskIds req).toList ++ adm.uniqTaskIds }

def neededPeftPages : ℤ := s.peftCacheManager.elim 0 fun peft => (requiredPeftPages peft adm.uniqTaskIds req : ℤ)

/-- `getEncoderUniqueTokens().value()` behind the test for reuse. -/
def crossFirstNewBlock : Except CapacityError (Option ℕ) :=
  match s.crossKvCacheManager with
  | none => .ok none
  | some cross =>
    if cross.enableBlockReuse then
      if req.hasEncoderUniqueTokens then .ok (cross.firstNewBlock req) else .error .missingEncoderTokens
    else .ok none

variable (activeRequests : List LlmRequest)

def prefillContributedBlocks : Except CapacityError (List ℕ × List ℕ) :=
  let executing := activeRequests.filter fun req => req.isContextInitState && !req.isFirstContextChunk
  match executing.mapM (crossFirstNewBlock s) with
  | .error e => .error e
  | .ok crossBlocks => .ok (executing.filterMap s.newContextBlock, crossBlocks.filterMap id)

def canBeScheduled : Bool :=
  req.isDisaggGenerationInitState || req.isDisaggGenerationTransmissionInProgress
    || req.inStateRange s.noScheduleUntilState s.noScheduleAfterState

def reserveBlocks : Admission := { adm with toAdmission := s.reserveBlocks adm.toAdmission req }

def firstPass (adm : Admission) (pending : Pending) :
    List LlmRequest → Admission × Pending
  | [] => (adm, pending)
  | req :: rest =>
    if !canBeScheduled s req then firstPass adm pending rest
    else if s.maxNumRequests ≤ adm.numAdmittedRequests then (adm, pending)
    else if req.isDisaggGenerationTransmissionInProgress || req.isGenerationInProgressState then
      let adm := { adm with
        numAdmittedRequests := adm.numAdmittedRequests + 1
        scheduledRequests := adm.scheduledRequests ++ (if req.isGenerationInProgressState then [req] else []) }
      firstPass (claimPeftPages s (reserveBlocks s adm req) req) pending rest
    else if req.isDisaggGenerationInitState then
      firstPass adm { pending with disGenInitRequests := pending.disGenInitRequests ++ [req] } rest
    else firstPass adm { pending with requests := pending.requests ++ [req] } rest

inductive Verdict where
  | next (adm : Admission)
  | stop (adm : Admission)

def schedule : Admission := { adm with
    scheduledRequests := adm.scheduledRequests ++ [req]
    numAdmittedRequests := adm.numAdmittedRequests + 1
    availablePeftPages := adm.availablePeftPages - neededPeftPages s adm req
    uniqTaskIds := (newTask adm.uniqTaskIds req).toList ++ adm.uniqTaskIds }

def admitRequest : Verdict :=
  if s.maxNumRequests ≤ adm.numAdmittedRequests then .stop adm
  else if req.isEncoderInitState then
    if neededPeftPages s adm req ≤ adm.availablePeftPages then .next (schedule s adm req) else .next adm
  else if req.isContextInitState || req.isDisaggGenerationInitState then
    let enough := s.enoughBlocks adm.toAdmission req && s.enoughCrossBlocks adm.toAdmission req
    if enough && decide (neededPeftPages s adm req ≤ adm.availablePeftPages) then
      .next (reserveBlocks s (schedule s adm req) req)
    else if !enough then .stop adm
    else .next adm
  else .next adm

def beneficialToSkip (block crossBlock : Option ℕ) : Bool × Admission :=
  if isContributed block adm.newlyContributedContextBlocks then (true, adm)
  else if isContributed crossBlock adm.newlyContributedCrossContextBlocks then (true, adm)
  else
    (false, { adm with
      newlyContributedContextBlocks := block.toList ++ adm.newlyContributedContextBlocks
      newlyContributedCrossContextBlocks := crossBlock.toList ++ adm.newlyContributedCrossContextBlocks })

def isFirstChunkContext : Bool := req.isContextInitState && req.isFirstContextChunk && !req.isDisaggGenerationInitState

def summaryBlock : Option ℕ :=
  if s.enablePrefixAwareScheduling && isFirstChunkContext req && !s.kvCacheManager.isVariableWindow then
    s.newContextBlock req
  else none

/-- The first new block in the cross summary, which encoder requests have too. -/
def crossSummaryBlock : Except CapacityError (Option ℕ) :=
  if s.enablePrefixAwareScheduling && (isFirstChunkContext req || req.isEncoderInitState)
      && !(s.crossKvCacheManager.any (·.isVariableWindow)) then
    crossFirstNewBlock s req
  else .ok none

def visitPending : Except CapacityError Verdict :=
  match crossSummaryBlock s req with
  | .error e => .error e
  | .ok crossBlock =>
    let (skipped, adm) :=
      if s.isSkippingRelevant && (isFirstChunkContext req || req.isEncoderInitState) then
        beneficialToSkip adm (summaryBlock s req) crossBlock
      else (false, adm)
    if skipped then .ok (.next adm) else .ok (admitRequest s adm req)

def secondPass (adm : Admission) : List LlmRequest → Except CapacityError Admission
  | [] => .ok adm
  | req :: rest =>
    match visitPending s adm req with
    | .error e => .error e
    | .ok (.stop adm) => .ok adm
    | .ok (.next adm) => secondPass adm rest

/-- The state before the first pass; without an adapter manager the pages are `numeric_limits<SizeType32>::max()`. -/
def start : Except CapacityError Admission :=
  match if s.isSkippingRelevant then prefillContributedBlocks s activeRequests else .ok ([], []) with
  | .error e => .error e
  | .ok contributed => .ok
      { scheduledRequests := []
        availableBlocks := s.kvCacheManager.numFreeBlocks
        availableCrossBlocks := s.crossKvCacheManager.map (·.numFreeBlocks)
        claimedPeftPages := 0
        availablePeftPages := s.peftCacheManager.elim (2 ^ 31 - 1) fun peft => (peft.maxDevicePages : ℤ)
        uniqTaskIds := []
        newlyContributedContextBlocks := contributed.1
        newlyContributedCrossContextBlocks := contributed.2
        numAdmittedRequests := 0 }

def runPolicy : Except CapacityError Admission :=
  if s.noScheduleUntilState = .encoderInit && s.crossKvCacheManager.isNone then .error .crossKvCacheManagerRequired
  else
    match start s activeRequests with
    | .error e => .error e
    | .ok adm =>
      let (adm, pending) := firstPass s adm ⟨[], []⟩ activeRequests
      let adm := { adm with availablePeftPages := adm.availablePeftPages - adm.claimedPeftPages }
      (secondPass s adm pending.disGenInitRequests).bind fun adm => secondPass s adm pending.requests

def scheduleRequest : Except CapacityError CapacityOutput :=
  (runPolicy s activeRequests).map fun adm => classifyOutput adm.scheduledRequests

/-! ### The simulation

The C++ state carries what the Python state carries. Without an adapter manager the C++ code still remembers
adapters, which changes nothing. -/

section Simulation

variable {s}

structure Sim (s : CapacityScheduler) (a : Scheduler.Admission) (c : Admission) : Prop where
  scheduled : c.scheduledRequests = a.scheduledRequests
  admitted : c.numAdmittedRequests = a.scheduledRequests.length
  blocks : c.availableBlocks = a.availableBlocks
  cross : c.availableCrossBlocks = a.availableCrossBlocks
  context : c.newlyContributedContextBlocks = a.newlyContributedContextBlocks
  crossContext : c.newlyContributedCrossContextBlocks = a.newlyContributedCrossContextBlocks
  peft : s.peftCacheManager ≠ none → c.claimedPeftPages = a.claimedPeftPages ∧
    c.availablePeftPages = a.availablePeftPages ∧ c.uniqTaskIds = a.uniqTaskIds
  noPeft : s.peftCacheManager = none → c.claimedPeftPages = 0 ∧ 0 ≤ c.availablePeftPages

variable {a : Scheduler.Admission} {c : Admission} {req : LlmRequest} (h : Sim s a c)

include h

variable (req)

theorem Sim.reserve : Sim s (s.reserveBlocks a req) (reserveBlocks s c req) := { h with
    blocks := congrArg (decrementReservedBlocks (s.neededBlocks s.kvCacheManager req)) h.blocks
    cross := by
      show s.crossKvCacheManager.bind _ = s.crossKvCacheManager.bind _
      rw [h.cross] }

theorem Sim.append : Sim s { a with scheduledRequests := a.scheduledRequests ++ [req] } { c with
        numAdmittedRequests := c.numAdmittedRequests + 1
        scheduledRequests := c.scheduledRequests ++ [req] } :=
  { h with
    scheduled := by rw [h.scheduled]
    admitted := by simp [h.admitted] }

theorem Sim.claim : Sim s (s.claimPeftPages a req) (claimPeftPages s c req) := by
  unfold CapacityScheduler.claimPeftPages claimPeftPages
  cases hpeft : s.peftCacheManager with
  | none =>
    refine { h with peft := absurd hpeft, noPeft := fun _ => ?_ }
    simpa using h.noPeft hpeft
  | some peft =>
    obtain ⟨hclaimed, havailable, huniq⟩ := h.peft (by simp [hpeft])
    refine { h with peft := fun _ => ?_, noPeft := fun hnone => by simp [hpeft] at hnone }
    simp [hclaimed, havailable, huniq]

theorem Sim.schedule : (s.takePeftPages a req = none ∧ c.availablePeftPages < neededPeftPages s c req) ∨
    ∃ a', s.takePeftPages a req = some a' ∧ neededPeftPages s c req ≤ c.availablePeftPages ∧
      Sim s { a' with scheduledRequests := a'.scheduledRequests ++ [req] } (Cpp.schedule s c req) := by
  unfold CapacityScheduler.takePeftPages
  cases hpeft : s.peftCacheManager with
  | none =>
    have hzero : neededPeftPages s c req = 0 := by simp [neededPeftPages, hpeft]
    have hnonneg := (h.noPeft hpeft).2
    refine .inr ⟨a, rfl, by omega, { h.append req with
      peft := absurd hpeft
      noPeft := fun _ => ⟨(h.noPeft hpeft).1, ?_⟩ }⟩
    show 0 ≤ c.availablePeftPages - neededPeftPages s c req
    omega
  | some peft =>
    obtain ⟨hclaimed, havailable, huniq⟩ := h.peft (by simp [hpeft])
    have hneeded : neededPeftPages s c req = requiredPeftPages peft a.uniqTaskIds req := by
      simp [neededPeftPages, hpeft, huniq]
    simp only
    split_ifs with hshort
    · exact .inl ⟨rfl, by omega⟩
    · refine .inr ⟨_, rfl, by omega, { h.append req with
        peft := fun _ => ?_
        noPeft := fun hnone => by simp [hpeft] at hnone }⟩
      simp [Cpp.schedule, hclaimed, havailable, huniq, hneeded]

inductive SimVerdict (s : CapacityScheduler) : CapacityScheduler.Verdict → Verdict → Prop where
  | next {a : Scheduler.Admission} {c : Admission} (h : Sim s a c) : SimVerdict s (.next a) (.next c)
  | stop {a : Scheduler.Admission} {c : Admission} (h : Sim s a c) : SimVerdict s (.stop a) (.stop c)

theorem Sim.enoughBlocks : s.enoughBlocks c.toAdmission req = s.enoughBlocks a req := by
  simp only [CapacityScheduler.enoughBlocks, h.blocks]

theorem Sim.enoughCrossBlocks : s.enoughCrossBlocks c.toAdmission req = s.enoughCrossBlocks a req := by
  simp only [CapacityScheduler.enoughCrossBlocks, h.cross]

theorem Sim.admitRequest : SimVerdict s (s.admitRequest a req) (Cpp.admitRequest s c req) := by
  unfold CapacityScheduler.admitRequest Cpp.admitRequest
  rw [h.admitted, h.enoughBlocks, h.enoughCrossBlocks]
  by_cases hfull : s.maxNumRequests ≤ a.scheduledRequests.length
  · rw [if_pos hfull, if_pos hfull]
    exact .stop h
  rw [if_neg hfull, if_neg hfull]
  by_cases hencoder : req.isEncoderInitState
  · rw [if_pos hencoder, if_pos hencoder, CapacityScheduler.schedule]
    rcases h.schedule req with ⟨hnone, hshort⟩ | ⟨a', hsome, hfit, hsim⟩
    · rw [hnone, if_neg (not_le.2 hshort)]
      exact .next h
    · rw [hsome, if_pos hfit]
      exact .next hsim
  rw [if_neg hencoder, if_neg hencoder]
  by_cases hcontext : req.isContextInitState || req.isDisaggGenerationInitState
  swap
  · rw [if_neg hcontext, if_neg hcontext]
    exact .next h
  rw [if_pos hcontext, if_pos hcontext]
  by_cases henough : s.enoughBlocks a req && s.enoughCrossBlocks a req
  swap
  · simp only [henough]
    exact .stop h
  simp only [henough, if_true, CapacityScheduler.scheduleAndReserve]
  rcases h.schedule req with ⟨hnone, hshort⟩ | ⟨a', hsome, hfit, hsim⟩
  · rw [hnone, if_neg (by simpa using hshort)]
    exact .next h
  · rw [hsome, if_pos (by simpa using hfit)]
    exact .next (hsim.reserve req)

variable {req}

omit h

/-- The requests on which the two sides are meant to agree: none waits for encoder output (an event of the Python
executor only); an encoder request in range has a cross manager, which does not reuse blocks if reuse is looked at; and
a context request brings its encoder tokens to a cross manager that looks for them. -/
structure Comparable (s : CapacityScheduler) (req : LlmRequest) : Prop where
  ready : req.isWaitingForEncoderOutput = false
  encoder : req.isEncoderInitState → s.canBeScheduled req →
    ∃ cross ∈ s.crossKvCacheManager, s.enablePrefixAwareScheduling → cross.enableBlockReuse = false
  tokens : req.isContextInitState → s.enablePrefixAwareScheduling →
    ∀ cross ∈ s.crossKvCacheManager, cross.enableBlockReuse → req.hasEncoderUniqueTokens

theorem isFirstChunkContext_eq (req : LlmRequest) :
    isFirstChunkContext req = (req.isContextInitState && req.isFirstContextChunk) := by
  unfold isFirstChunkContext isContextInitState isDisaggGenerationInitState
  cases req.state <;> simp

theorem Comparable.crossFirstNewBlock (h : Comparable s req) (hcontext : req.isContextInitState)
    (haware : s.enablePrefixAwareScheduling) : crossFirstNewBlock s req = .ok (s.newCrossContextBlock req) := by
  unfold Cpp.crossFirstNewBlock CapacityScheduler.newCrossContextBlock
  cases hcross : s.crossKvCacheManager with
  | none => rfl
  | some cross =>
    by_cases hreuse : cross.enableBlockReuse
    · simp [hreuse, h.tokens hcontext haware cross hcross hreuse]
    · simp [hreuse]

theorem Comparable.crossSummaryBlock (h : Comparable s req) (hrange : s.canBeScheduled req) :
    ∃ block, crossSummaryBlock s req = .ok block ∧ (req.isEncoderInitState → block = none) ∧
      (s.isSkippingRelevant → isFirstChunkContext req → block = s.newCrossContextBlock req) := by
  unfold Cpp.crossSummaryBlock
  by_cases hcontext : isFirstChunkContext req
  · have hinit : req.isContextInitState := by
      rw [isFirstChunkContext_eq, Bool.and_eq_true] at hcontext
      exact hcontext.1
    have hnot : ¬req.isEncoderInitState := by
      unfold isContextInitState at hinit
      unfold isEncoderInitState
      cases hstate : req.state <;> simp [hstate] at hinit ⊢
    split_ifs with hread
    · simp only [Bool.and_eq_true] at hread
      exact ⟨_, h.crossFirstNewBlock hinit hread.1.1, fun henc => absurd henc hnot, fun _ _ => rfl⟩
    · refine ⟨none, rfl, fun _ => rfl, fun hrelevant _ => ?_⟩
      simp only [CapacityScheduler.isSkippingRelevant, Bool.and_eq_true] at hrelevant
      simp [hcontext, hrelevant] at hread
  · split_ifs with hread
    · simp only [Bool.and_eq_true, hcontext] at hread
      obtain ⟨cross, hcross, hreuse⟩ := h.encoder hread.1.2 hrange
      refine ⟨none, ?_, fun _ => rfl, fun _ hc => absurd hc hcontext⟩
      simp [Cpp.crossFirstNewBlock, Option.mem_def.1 hcross, hreuse hread.1.1]
    · exact ⟨none, rfl, fun _ => rfl, fun _ hc => absurd hc hcontext⟩

theorem Sim.register (h : Sim s a c) (block crossBlock : Option ℕ) : Sim s { a with
        newlyContributedContextBlocks := block.toList ++ a.newlyContributedContextBlocks
        newlyContributedCrossContextBlocks := crossBlock.toList ++ a.newlyContributedCrossContextBlocks }
      { c with
        newlyContributedContextBlocks := block.toList ++ c.newlyContributedContextBlocks
        newlyContributedCrossContextBlocks := crossBlock.toList ++ c.newlyContributedCrossContextBlocks } :=
  { h with
    context := by rw [h.context]
    crossContext := by rw [h.crossContext] }

/-- A comparable request is skipped on both sides or on neither: an encoder request brings no block to wait for. -/
theorem Sim.skip (h : Sim s a c) {block : Option ℕ} (hencoder : req.isEncoderInitState → block = none)
    (hcontext : s.isSkippingRelevant → isFirstChunkContext req → block = s.newCrossContextBlock req) :
    ∃ skipped a' c',
      (if s.isSkippingRelevant && !req.isDisaggGenerationInitState then s.beneficialToSkip a req else (false, a))
        = (skipped, a') ∧
      (if s.isSkippingRelevant && (isFirstChunkContext req || req.isEncoderInitState) then
        Cpp.beneficialToSkip c (summaryBlock s req) block else (false, c)) = (skipped, c') ∧
      Sim s a' c' := by
  by_cases hrelevant : s.isSkippingRelevant
  swap
  · exact ⟨false, a, c, by simp [hrelevant], by simp [hrelevant], h⟩
  by_cases hfirst : isFirstChunkContext req
  · have hself : summaryBlock s req = s.newContextBlock req := by
      simp only [CapacityScheduler.isSkippingRelevant, Bool.and_eq_true] at hrelevant
      simp [summaryBlock, hfirst, hrelevant]
    have hnot : req.isDisaggGenerationInitState = false := by
      simp only [isFirstChunkContext, Bool.and_eq_true, Bool.not_eq_true'] at hfirst
      exact hfirst.2
    rw [hcontext hrelevant hfirst, hself]
    simp only [hrelevant, hnot, CapacityScheduler.beneficialToSkip,
      Cpp.beneficialToSkip, ← isFirstChunkContext_eq, hfirst, h.context, h.crossContext]
    by_cases hself : isContributed (s.newContextBlock req) a.newlyContributedContextBlocks
    · exact ⟨true, a, c, by simp [hself], by simp [hself], h⟩
    by_cases hcross : isContributed (s.newCrossContextBlock req) a.newlyContributedCrossContextBlocks
    · exact ⟨true, a, c, by simp [hcross], by simp [hcross], h⟩
    · refine ⟨false, _, _, ?_, ?_, h.register (s.newContextBlock req) (s.newCrossContextBlock req)⟩
      · simp [hself, hcross]
      · simp [hself, hcross, h.context, h.crossContext]
  · have hpython : s.beneficialToSkip a req = (false, a) := by
      rw [CapacityScheduler.beneficialToSkip, ← isFirstChunkContext_eq, if_neg hfirst]
    have hself : summaryBlock s req = none := by simp [summaryBlock, hfirst]
    by_cases hinit : req.isEncoderInitState
    · refine ⟨false, a, c, by simp [hpython], ?_, h⟩
      simp [hself, hencoder hinit, Cpp.beneficialToSkip, isContributed]
    · exact ⟨false, a, c, by simp [hpython], by simp [hfirst, hinit], h⟩

theorem Sim.visitPending (h : Sim s a c) (hreq : Comparable s req) (hrange : s.canBeScheduled req) :
    ∃ v w, s.visitPending a req = .ok v ∧ Cpp.visitPending s c req = .ok w ∧ SimVerdict s v w := by
  obtain ⟨block, hblock, hencoder, hcontext⟩ := hreq.crossSummaryBlock hrange
  obtain ⟨skipped, a', c', hpython, hcpp, hsim⟩ := h.skip hencoder hcontext
  have hcross : ¬(req.isEncoderInitState && s.crossKvCacheManager.isNone) := by
    intro hmissing
    rw [Bool.and_eq_true] at hmissing
    obtain ⟨cross, hmem, -⟩ := hreq.encoder hmissing.1 hrange
    simp [Option.mem_def.1 hmem] at hmissing
  unfold CapacityScheduler.visitPending Cpp.visitPending
  rw [if_neg hcross, hblock]
  simp only [hpython, hcpp]
  cases skipped with
  | true => exact ⟨_, _, rfl, rfl, .next hsim⟩
  | false => exact ⟨_, _, rfl, rfl, hsim.admitRequest req⟩

/-! ### Requests whose KV cache is being received -/

def withoutTransmitting (requests : List LlmRequest) : List LlmRequest :=
  requests.filter fun req => !req.isDisaggGenerationTransmissionInProgress

theorem withoutTransmitting_cons (h : req.isDisaggGenerationTransmissionInProgress) {rest : List LlmRequest} :
    withoutTransmitting (req :: rest) = withoutTransmitting rest :=
  filter_cons_of_neg (by simpa using h)

theorem withoutTransmitting_cons_of_not (h : ¬req.isDisaggGenerationTransmissionInProgress) {rest : List LlmRequest} :
    withoutTransmitting (req :: rest) = req :: withoutTransmitting rest :=
  filter_cons_of_pos (by simpa using h)

theorem not_init_of_transmitting (h : req.isDisaggGenerationTransmissionInProgress) :
    req.isContextInitState = false ∧ req.isDisaggGenerationInitState = false ∧ req.isEncoderInitState = false ∧
      req.isGenerationInProgressState = false := by
  unfold isDisaggGenerationTransmissionInProgress at h
  unfold isContextInitState isDisaggGenerationInitState isEncoderInitState isGenerationInProgressState
  cases hstate : req.state <;> simp [hstate] at h ⊢

theorem admitRequest_full (hfull : s.maxNumRequests ≤ c.numAdmittedRequests) : admitRequest s c req = .stop c := by
  simp [admitRequest, hfull]

theorem visitPending_full (hreq : Comparable s req) (hrange : s.canBeScheduled req)
    (hfull : s.maxNumRequests ≤ c.numAdmittedRequests) :
    ∃ c', (visitPending s c req = .ok (.next c') ∨ visitPending s c req = .ok (.stop c')) ∧
      c'.numAdmittedRequests = c.numAdmittedRequests ∧ c'.scheduledRequests = c.scheduledRequests := by
  obtain ⟨block, hblock, -, -⟩ := hreq.crossSummaryBlock hrange
  unfold visitPending
  simp only [hblock]
  by_cases hread : s.isSkippingRelevant && (isFirstChunkContext req || req.isEncoderInitState)
  · obtain ⟨hcount, hsame⟩ : (beneficialToSkip c (summaryBlock s req) block).2.numAdmittedRequests = c.numAdmittedRequests ∧
        (beneficialToSkip c (summaryBlock s req) block).2.scheduledRequests = c.scheduledRequests := by
      unfold beneficialToSkip
      split_ifs <;> exact ⟨rfl, rfl⟩
    rw [if_pos hread, admitRequest_full (hcount ▸ hfull)]
    split_ifs
    · exact ⟨_, .inl rfl, hcount, hsame⟩
    · exact ⟨_, .inr rfl, hcount, hsame⟩
  · rw [if_neg hread]
    exact ⟨c, .inr (congrArg Except.ok (admitRequest_full hfull)), rfl, rfl⟩

variable (requests : List LlmRequest)

theorem secondPass_full (hreqs : ∀ req ∈ requests, Comparable s req ∧ s.canBeScheduled req)
    (hfull : s.maxNumRequests ≤ c.numAdmittedRequests) :
    ∃ c', secondPass s c requests = .ok c' ∧ c'.scheduledRequests = c.scheduledRequests := by
  induction requests generalizing c with
  | nil => exact ⟨c, rfl, rfl⟩
  | cons req rest ih =>
    obtain ⟨⟨hcomp, hrange⟩, hrest⟩ := forall_mem_cons.1 hreqs
    obtain ⟨c', hvisit, hcount, hsame⟩ := visitPending_full hcomp hrange hfull
    rw [secondPass]
    rcases hvisit with hvisit | hvisit
    · rw [hvisit]
      obtain ⟨c'', hcpp, hsame'⟩ := ih hrest (hcount ▸ hfull)
      exact ⟨c'', hcpp, hsame'.trans hsame⟩
    · rw [hvisit]
      exact ⟨c', rfl, hsame⟩

theorem Sim.secondPass (h : Sim s a c) (hreqs : ∀ req ∈ requests, Comparable s req ∧ s.canBeScheduled req) :
    ∃ a' c', s.secondPass a requests = .ok a' ∧ Cpp.secondPass s c requests = .ok c' ∧ Sim s a' c' := by
  induction requests generalizing a c with
  | nil => exact ⟨a, c, rfl, rfl, h⟩
  | cons req rest ih =>
    obtain ⟨⟨hcomp, hrange⟩, hrest⟩ := forall_mem_cons.1 hreqs
    obtain ⟨v, w, hpython, hcpp, hverdict⟩ := h.visitPending hcomp hrange
    rw [CapacityScheduler.secondPass, Cpp.secondPass, hpython, hcpp]
    cases hverdict with
    | next hsim => exact ih hsim hrest
    | stop hsim => exact ⟨_, _, rfl, rfl, hsim⟩

/-- With such requests in the Python list the same requests are still admitted, but the C++ loop may look at more. -/
theorem Sim.secondPass_withoutTransmitting (h : Sim s a c)
    (hreqs : ∀ req ∈ requests, Comparable s req ∧ s.canBeScheduled req) :
    ∃ a' c', s.secondPass a requests = .ok a' ∧ Cpp.secondPass s c (withoutTransmitting requests) = .ok c' ∧
      c'.scheduledRequests = a'.scheduledRequests := by
  induction requests generalizing a c with
  | nil => exact ⟨a, c, rfl, rfl, h.scheduled⟩
  | cons req rest ih =>
    obtain ⟨⟨hcomp, hrange⟩, hrest⟩ := forall_mem_cons.1 hreqs
    by_cases htrans : req.isDisaggGenerationTransmissionInProgress
    · -- Python passes over such a request, or breaks at it when the batch is full
      have hvisit : s.visitPending a req = .ok (if s.maxNumRequests ≤ a.scheduledRequests.length then .stop a else .next a) := by
        obtain ⟨hcontext, hdisagg, hencoder, -⟩ := not_init_of_transmitting htrans
        have hskip : s.beneficialToSkip a req = (false, a) := by simp [CapacityScheduler.beneficialToSkip, hcontext]
        unfold CapacityScheduler.visitPending CapacityScheduler.admitRequest
        simp [hskip, hcontext, hdisagg, hencoder]
      rw [CapacityScheduler.secondPass, hvisit, withoutTransmitting_cons htrans]
      split_ifs with hfull
      · obtain ⟨c', hcpp, hsame⟩ := secondPass_full (withoutTransmitting rest)
          (fun r hr => hrest r (mem_filter.1 hr).1) (h.admitted ▸ hfull)
        exact ⟨a, c', rfl, hcpp, hsame.trans h.scheduled⟩
      · exact ih h hrest
    · obtain ⟨v, w, hpython, hcpp, hverdict⟩ := h.visitPending hcomp hrange
      rw [withoutTransmitting_cons_of_not htrans, CapacityScheduler.secondPass, Cpp.secondPass, hpython, hcpp]
      cases hverdict with
      | next hsim => exact ih hsim hrest
      | stop hsim => exact ⟨_, _, rfl, rfl, hsim.scheduled⟩

theorem firstPass_full {pending : Pending} (hfull : s.maxNumRequests ≤ c.numAdmittedRequests)
    (requests : List LlmRequest) : firstPass s c pending requests = (c, pending) := by
  induction requests with
  | nil => rfl
  | cons req rest ih => simp [firstPass, hfull, ih]

def pendingWithoutTransmitting (pending : Pending) : Pending := { pending with requests := withoutTransmitting pending.requests }

variable {requests : List LlmRequest}

theorem Sim.firstPass (h : Sim s a c) (pending : Pending) (hreqs : ∀ req ∈ requests, Comparable s req) :
    ∃ c', Cpp.firstPass s c (pendingWithoutTransmitting pending) (withoutTransmitting requests) =
        (c', pendingWithoutTransmitting (s.firstPass a pending requests).2) ∧ Sim s (s.firstPass a pending requests).1 c' := by
  induction requests generalizing a c pending with
  | nil => exact ⟨c, rfl, h⟩
  | cons req rest ih =>
    obtain ⟨hcomp, hrest⟩ := forall_mem_cons.1 hreqs
    rw [CapacityScheduler.firstPass]
    by_cases htrans : req.isDisaggGenerationTransmissionInProgress
    · obtain ⟨-, hdisagg, -, hgeneration⟩ := not_init_of_transmitting htrans
      rw [withoutTransmitting_cons htrans]
      simp only [hgeneration, hdisagg, Bool.false_eq_true, if_false]
      split_ifs with hrange hfull
      · exact ih h pending hrest
      · exact ⟨c, firstPass_full (h.admitted ▸ hfull) _, h⟩
      -- Python puts the request on its pending list, where the C++ run has nothing
      have hsame : pendingWithoutTransmitting { pending with requests := pending.requests ++ [req] } =
          pendingWithoutTransmitting pending := by
        simp [pendingWithoutTransmitting, withoutTransmitting, htrans]
      have hnext := ih h { pending with requests := pending.requests ++ [req] } hrest
      rwa [hsame] at hnext
    · have hsame : canBeScheduled s req = s.canBeScheduled req := by
        simp [canBeScheduled, CapacityScheduler.canBeScheduled, htrans, hcomp.ready]
      rw [withoutTransmitting_cons_of_not htrans, Cpp.firstPass, hsame, h.admitted]
      simp only [htrans, Bool.false_or]
      split_ifs with hrange hfull hgeneration hdisagg
      · exact ih h pending hrest
      · exact ⟨c, rfl, h⟩
      · have happend := h.append req
        rw [h.admitted] at happend
        exact ih ((happend.reserve req).claim req) pending hrest
      · exact ih h { pending with disGenInitRequests := pending.disGenInitRequests ++ [req] } hrest
      · have hsame : pendingWithoutTransmitting { pending with requests := pending.requests ++ [req] } =
            { pendingWithoutTransmitting pending with
              requests := (pendingWithoutTransmitting pending).requests ++ [req] } := by
          simp [pendingWithoutTransmitting, withoutTransmitting, htrans]
        have hnext := ih h { pending with requests := pending.requests ++ [req] } hrest
        rwa [hsame] at hnext

theorem mem_firstPass_pending {p : LlmRequest → Prop} (pending : Pending)
    (hp : ∀ req ∈ requests, s.canBeScheduled req → p req)
    (hdisagg : ∀ req ∈ pending.disGenInitRequests, p req) (hothers : ∀ req ∈ pending.requests, p req) :
    (∀ req ∈ (s.firstPass a pending requests).2.disGenInitRequests, p req) ∧
      ∀ req ∈ (s.firstPass a pending requests).2.requests, p req := by
  induction requests generalizing a pending with
  | nil => exact ⟨hdisagg, hothers⟩
  | cons head rest ih =>
    obtain ⟨hhead, hrest⟩ := forall_mem_cons.1 hp
    have hadd : ∀ l : List LlmRequest, (∀ req ∈ l, p req) → s.canBeScheduled head → ∀ req ∈ l ++ [head], p req :=
      fun l hl hrange => forall_mem_append.2 ⟨hl, forall_mem_singleton.2 (hhead hrange)⟩
    rw [CapacityScheduler.firstPass]
    split_ifs with hrange hfull hgeneration hinit
    · exact ih pending hrest hdisagg hothers
    · exact ⟨hdisagg, hothers⟩
    · exact ih pending hrest hdisagg hothers
    · exact ih _ hrest (hadd _ hdisagg (by simpa using hrange)) hothers
    · exact ih _ hrest hdisagg (hadd _ hothers (by simpa using hrange))

theorem crossFirstNewBlock_mapM (requests : List LlmRequest) (hreqs : ∀ req ∈ requests, Comparable s req)
    (hcontext : ∀ req ∈ requests, req.isContextInitState) (haware : s.enablePrefixAwareScheduling) :
    requests.mapM (crossFirstNewBlock s) = .ok (requests.map s.newCrossContextBlock) := by
  induction requests with
  | nil => rfl
  | cons req rest ih =>
    rw [forall_mem_cons] at hreqs hcontext
    rw [mapM_cons, hreqs.1.crossFirstNewBlock hcontext.1 haware, ih hreqs.2 hcontext.2]
    rfl

theorem prefillContributedBlocks_eq (hreqs : ∀ req ∈ requests, Comparable s req)
    (haware : s.enablePrefixAwareScheduling) :
    prefillContributedBlocks s (withoutTransmitting requests) = .ok (s.prefillContributedBlocks requests) := by
  have hfilter : ((withoutTransmitting requests).filter fun req => req.isContextInitState && !req.isFirstContextChunk) =
      requests.filter fun req => req.isContextInitState && !req.isFirstContextChunk := by
    rw [withoutTransmitting, filter_filter]
    refine filter_congr fun req _ => ?_
    by_cases htrans : req.isDisaggGenerationTransmissionInProgress
    · simp [(not_init_of_transmitting htrans).1]
    · simp [htrans]
  have hcross := crossFirstNewBlock_mapM
    (requests.filter fun req => req.isContextInitState && !req.isFirstContextChunk)
    (fun req hreq => hreqs req (mem_filter.1 hreq).1)
    (fun req hreq => by simpa using ((Bool.and_eq_true _ _).mp (mem_filter.mp hreq).2).1) haware
  unfold prefillContributedBlocks CapacityScheduler.prefillContributedBlocks
  simp only [hfilter, hcross, filterMap_map, Function.id_comp]

theorem Sim.start (hreqs : ∀ req ∈ requests, Comparable s req) :
    ∃ c, Cpp.start s (withoutTransmitting requests) = .ok c ∧ Sim s (s.start requests) c := by
  have hcontributed : (if s.isSkippingRelevant then Cpp.prefillContributedBlocks s (withoutTransmitting requests)
      else .ok ([], [])) =
      .ok (if s.isSkippingRelevant then s.prefillContributedBlocks requests else ([], [])) := by
    split_ifs with hrelevant
    · simp only [CapacityScheduler.isSkippingRelevant, Bool.and_eq_true] at hrelevant
      exact prefillContributedBlocks_eq hreqs hrelevant.1.1
    · rfl
  unfold Cpp.start
  rw [hcontributed]
  refine ⟨_, rfl, ⟨rfl, rfl, rfl, rfl, rfl, rfl, fun hpeft => ⟨rfl, ?_, rfl⟩, fun hpeft => ⟨rfl, ?_⟩⟩⟩
  · obtain ⟨peft, hsome⟩ := Option.ne_none_iff_exists'.1 hpeft
    simp [CapacityScheduler.start, hsome]
  · simp [hpeft]

theorem Sim.takeClaimed (h : Sim s a c) :
    Sim s { a with availablePeftPages := a.availablePeftPages - a.claimedPeftPages }
      { c with availablePeftPages := c.availablePeftPages - c.claimedPeftPages } :=
  { h with
    peft := fun hpeft => by
      obtain ⟨hclaimed, havailable, huniq⟩ := h.peft hpeft
      exact ⟨hclaimed, by rw [havailable, hclaimed], huniq⟩
    noPeft := fun hpeft => by
      obtain ⟨hclaimed, havailable⟩ := h.noPeft hpeft
      refine ⟨hclaimed, ?_⟩
      show 0 ≤ c.availablePeftPages - c.claimedPeftPages
      omega }

theorem runPolicy_sim (hreqs : ∀ req ∈ requests, Comparable s req)
    (hcross : s.noScheduleUntilState = .encoderInit → s.crossKvCacheManager ≠ none) :
    ∃ a c, s.runPolicy requests = .ok a ∧ runPolicy s (withoutTransmitting requests) = .ok c ∧
      c.scheduledRequests = a.scheduledRequests := by
  obtain ⟨c₀, hstart, hsim₀⟩ := Sim.start hreqs
  obtain ⟨c₁, hfirst, hsim₁⟩ := hsim₀.firstPass ⟨[], []⟩ hreqs
  rw [show pendingWithoutTransmitting ⟨[], []⟩ = ⟨[], []⟩ from rfl] at hfirst
  obtain ⟨hdisagg, hothers⟩ := mem_firstPass_pending (a := s.start requests)
    (p := fun req => Comparable s req ∧ s.canBeScheduled req) ⟨[], []⟩
    (fun req hreq hrange => ⟨hreqs req hreq, hrange⟩) (by simp) (by simp)
  obtain ⟨a₂, c₂, hpython₂, hcpp₂, hsim₂⟩ := hsim₁.takeClaimed.secondPass _ hdisagg
  obtain ⟨a₃, c₃, hpython₃, hcpp₃, hsame⟩ := hsim₂.secondPass_withoutTransmitting _ hothers
  refine ⟨a₃, c₃, ?_, ?_, hsame⟩
  · simp only [CapacityScheduler.runPolicy, hpython₂]
    exact hpython₃
  · have hmanager : ¬(s.noScheduleUntilState = .encoderInit && s.crossKvCacheManager.isNone) := by
      simpa using hcross
    simp only [runPolicy, if_neg hmanager, hstart, hfirst, pendingWithoutTransmitting, hcpp₂]
    exact hcpp₃

/-- On requests on which they are meant to agree, the Python scheduler returns what the C++ scheduler returns for the
list without the requests whose KV cache is being received. -/
theorem scheduleRequest_agree (s : CapacityScheduler) (requests : List LlmRequest)
    (hreqs : ∀ req ∈ requests, Comparable s req)
    (hcross : s.noScheduleUntilState = .encoderInit → s.crossKvCacheManager ≠ none) :
    ∃ out, s.scheduleRequest requests = .ok out ∧ out.pausedRequests = [] ∧
      Cpp.scheduleRequest s (withoutTransmitting requests) = .ok out ∧
      ((∀ req ∈ requests, ¬req.isDisaggGenerationTransmissionInProgress) → Cpp.scheduleRequest s requests = .ok out) := by
  obtain ⟨a, c, hpython, hcpp, hsame⟩ := runPolicy_sim hreqs hcross
  have hagree : Cpp.scheduleRequest s (withoutTransmitting requests) = .ok (classifyOutput a.scheduledRequests) := by
    rw [Cpp.scheduleRequest, hcpp, ← hsame]
    rfl
  refine ⟨_, ?_, ?_, hagree, fun hnone => ?_⟩
  · rw [CapacityScheduler.scheduleRequest, hpython]
    rfl
  · rfl
  · have hfilter : withoutTransmitting requests = requests := filter_eq_self.2 fun req hreq => by simpa using hnone req hreq
    rwa [hfilter] at hagree

end Simulation

def oneLimit (maxNumRequests : ℕ) (free : ℤ) : CapacityScheduler where
  maxNumRequests := maxNumRequests
  kvCacheManager := promptPool free
  crossKvCacheManager := none
  peftCacheManager := none
  noScheduleUntilState := .contextInit
  noScheduleAfterState := .generationComplete
  enablePrefixAwareScheduling := true

/-- A generation, a disaggregated and a context request fit; the last context request does not. -/
theorem scheduleRequest_agree_four_requests :
    let generation := { arrived 1 4 with state := .generationInProgress }
    let disagg := { arrived 2 3 with state := .disaggGenerationInit }
    let requests := [.arrived 3 2, generation, disagg, .arrived 4 2]
    (oneLimit 8 10).scheduleRequest requests = .ok ⟨[generation, .arrived 3 2], [disagg], []⟩ ∧
    ∃ out, (oneLimit 8 10).scheduleRequest requests = .ok out ∧ out.pausedRequests = [] ∧
      Cpp.scheduleRequest (oneLimit 8 10) (withoutTransmitting requests) = .ok out ∧
      ((∀ req ∈ requests, ¬req.isDisaggGenerationTransmissionInProgress) →
        Cpp.scheduleRequest (oneLimit 8 10) requests = .ok out) := by
  refine ⟨by decide +kernel, scheduleRequest_agree _ _ ?_ (by decide)⟩
  simp only [forall_mem_cons, not_mem_nil, false_implies, implies_true, and_true]
  refine ⟨⟨?_, ?_, ?_⟩, ⟨?_, ?_, ?_⟩, ⟨?_, ?_, ?_⟩, ⟨?_, ?_, ?_⟩⟩ <;>
    simp [arrived, isWaitingForEncoderOutput, isEncoderInitState, oneLimit]

/-- Python leaves out a context request whose encoder output is not ready, an event C++ does not have. A request whose
KV cache is being received takes the only place of the C++ batch, or blocks, and none in Python. -/
theorem scheduleRequest_disagree : (let waiting := { arrived 1 4 with encoderOutputReadyEvent := some false }
     (oneLimit 8 10).scheduleRequest [waiting] = .ok ⟨[], [], []⟩ ∧
     Cpp.scheduleRequest (oneLimit 8 10) [waiting] = .ok ⟨[waiting], [], []⟩) ∧
    (let receiving := { arrived 1 4 with state := .disaggGenerationTransInProgress }
     let context := arrived 2 8
     (oneLimit 1 100).scheduleRequest [receiving, context] = .ok ⟨[context], [], []⟩ ∧
     Cpp.scheduleRequest (oneLimit 1 100) [receiving, context] = .ok ⟨[], [], []⟩ ∧
     (oneLimit 8 10).scheduleRequest [receiving, context] = .ok ⟨[context], [], []⟩ ∧
     Cpp.scheduleRequest (oneLimit 8 10) [receiving, context] = .ok ⟨[], [], []⟩) := by
  decide +kernel

end TrtLlm.Scheduler.Cpp
