import TrtLlm.Scheduler.ChunkBounds

/-!
# The C++ chunking code and its Python mirror

`MicroBatchScheduler::setCtxRequestsChunkSize` and its specialisations. The chunk sizes are those of the Python code.
The draft tokens are not: C++ charges the free rest of a chunk unit to the capacity where Python charges the draft
tokens it keeps, and does not clamp that rest at zero.
-/

namespace TrtLlm.Scheduler.Cpp

open LlmRequest Option

/-! ### The C++ functions -/

variable (l : ChunkLimits)

def equalProgressStep (p : Progress) (req : LlmRequest) : Except ScheduleError (Progress × LlmRequest) :=
  let pastChunkSize := req.contextChunkSize
  let req' := req.withContextChunkSize (pastChunkSize + l.unitSize)
  let actualChunkSize := req'.contextChunkSize
  let actualIncrement : ℤ := actualChunkSize - pastChunkSize
  let computeIncrement := req.computeOf actualChunkSize - req.computeOf pastChunkSize
  if exceeds l.capacity (p.numComputeTokens + computeIncrement) || exceeds l.maxContextLength actualChunkSize then
    .ok (p, req'.withContextChunkSize pastChunkSize)
  else .ok (⟨p.numComputeTokens + computeIncrement, p.numTokensSingleLoop + actualIncrement⟩, req')

def equalProgressLoop (l : ChunkLimits) (fuel : ℕ) (p : Progress) (reqs : List LlmRequest) :
    Except ScheduleError (List LlmRequest) :=
  if l.capacity.any (fun c => decide (c ≤ p.numComputeTokens)) || decide (p.numTokensSingleLoop = 0) then
    .ok reqs
  else
    match fuel with
    | 0 => .error .outOfFuel
    | fuel + 1 =>
      match sweep (equalProgressStep l) { p with numTokensSingleLoop := 0 } reqs with
      | .error e => .error e
      | .ok (p', reqs') => equalProgressLoop l fuel p' reqs'

def fcfsSize (ctxTokensCapacity : Option ℤ) (req : LlmRequest) : ℤ :=
  let suggestedChunkSize : ℤ := req.contextRemainingLength
  let computeCost := req.computeOf suggestedChunkSize
  let byCapacity :=
    match ctxTokensCapacity with
    | none => suggestedChunkSize
    | some c => if computeCost > c then c else suggestedChunkSize
  let byContextLength :=
    match l.maxContextLength with
    | none => byCapacity
    | some m => if req.computeOf byCapacity > m then min m suggestedChunkSize else byCapacity
  if byContextLength ≠ suggestedChunkSize then (byContextLength.tdiv l.unitSize) * l.unitSize else byContextLength

/-- The cost charged to the capacity is that of the requested size, before the setter clamps it. -/
def fcfsStep (ctxTokensCapacity : Option ℤ) (req : LlmRequest) : Except ScheduleError (Option ℤ × LlmRequest) :=
  let actualChunkSize := fcfsSize l ctxTokensCapacity req
  match req.setContextChunkSize actualChunkSize with
  | .error e => .error e
  | .ok req' => .ok (ctxTokensCapacity.map fun c => c - req.computeOf actualChunkSize, req')

def nextSnapshotPoint (currentPosition : ℕ) (expectedSnapshotPoints : List ℕ) : Option ℕ :=
  expectedSnapshotPoints.foldl
    (fun next point =>
      if currentPosition < point && next.all (fun n => decide (point < n)) then some point else next)
    none

def forcedContextChunkSize (req : LlmRequest) : ℕ :=
  if req.expectSnapshotPoints.isEmpty then req.contextRemainingLength
  else
    match nextSnapshotPoint req.contextCurrentPosition req.expectSnapshotPoints with
    | some point => min point req.promptLen - req.contextCurrentPosition
    | none => req.contextRemainingLength

def forcedSize (totalTokens : ℤ) (req : LlmRequest) : ℤ :=
  let chunkSize : ℤ := forcedContextChunkSize req
  let chunkSize :=
    match l.maxContextLength with
    | none => chunkSize
    | some m => if chunkSize > m then (m.tdiv l.unitSize) * l.unitSize else chunkSize
  match l.capacity with
  | none => chunkSize
  | some c =>
    if totalTokens + chunkSize > c then
      ((min chunkSize (max 0 (c - totalTokens))).tdiv l.unitSize) * l.unitSize
    else chunkSize

def forcedStep (totalTokens : ℤ) (req : LlmRequest) : Except ScheduleError (ℤ × LlmRequest) :=
  match req.setContextChunkSize (forcedSize l totalTokens req) with
  | .error e => .error e
  | .ok req' => .ok (totalTokens + req'.contextChunkSize, req')

def chunkForced (reqs : List LlmRequest) : Except ScheduleError (List LlmRequest) :=
  match l.maxContextLength with
  | some m =>
    if m < l.unitSize then .error (.forcedChunkExceedsMaxContextLength l.unitSize m)
    else (sweep (forcedStep l) 0 reqs).map Prod.snd
  | none => (sweep (forcedStep l) 0 reqs).map Prod.snd

def chargedSpace (numCtxTokens : ℤ) (req : LlmRequest) : ℤ :=
  match l.capacity with
  | none => remainingSpaceForDraftTokens l req
  | some c => min (remainingSpaceForDraftTokens l req) (c - numCtxTokens)

def fitDraftTokensStep (numCtxTokens : ℤ) (req : LlmRequest) : Except ScheduleError (ℤ × LlmRequest) :=
  if req.isLastContextChunk && req.hasDraftTokens then
    let space := chargedSpace l numCtxTokens req
    let numCtxTokens' := charge l numCtxTokens space
    let draftTokensToDiscard := req.numDraftTokens - space
    if 0 < draftTokensToDiscard then
      (req.discardDraftTokens draftTokensToDiscard).map fun req' => (numCtxTokens', req')
    else .ok (numCtxTokens', req)
  else .ok (numCtxTokens, req)

def fitDraftTokens (reqs : List LlmRequest) : Except ScheduleError (List LlmRequest) :=
  (sweep (fitDraftTokensStep l) (reqs.map chunkCompute).sum reqs).map Prod.snd

def assignChunks (fuel : ℕ) (policy : ChunkingPolicy) (reqs : List LlmRequest) :
    Except ScheduleError (List LlmRequest) :=
  let reqs := reqs.map (·.withContextChunkSize 0)
  match policy with
  | .equalProgress => equalProgressLoop l fuel ⟨0, 1⟩ reqs
  | .firstComeFirstServed => (sweep (fcfsStep l) l.capacity reqs).map Prod.snd
  | .forceChunk => chunkForced l reqs

def setCtxRequestsChunkSize (fuel : ℕ) (policy : ChunkingPolicy) (reqs : List LlmRequest) :
    Except ScheduleError (List LlmRequest) :=
  (assignChunks l fuel policy reqs).bind (fitDraftTokens l)

variable {l : ChunkLimits} {req : LlmRequest}

theorem equalProgressStep_eq (l : ChunkLimits) (p : Progress) (req : LlmRequest) :
    equalProgressStep l p req = Scheduler.equalProgressStep l p req := by
  have hclamp : req.withContextChunkSize (min (req.contextChunkSize + l.unitSize) req.contextRemainingLength) =
      req.withContextChunkSize (req.contextChunkSize + l.unitSize) := by
    simp [withContextChunkSize]
  unfold equalProgressStep Scheduler.equalProgressStep
  simp only [hclamp, Bool.or_eq_true]
  split_ifs with hor hover hlong hover hlong
  · rfl
  · rfl
  · tauto
  · tauto
  · tauto
  · rfl

/-- The two loop tests differ only on a negative number of tokens. -/
theorem equalProgressLoop_eq {fuel : ℕ} {p : Progress} {reqs : List LlmRequest}
    (hcap : l.Fits p.numComputeTokens) (hreqs : ∀ req ∈ reqs, Whole l .equalProgress req)
    (htokens : 0 ≤ p.numTokensSingleLoop) :
    equalProgressLoop l fuel p reqs = Scheduler.equalProgressLoop l fuel p reqs := by
  have htest : decide (p.numTokensSingleLoop = 0) = decide (p.numTokensSingleLoop ≤ 0) := by
    rw [decide_eq_decide]
    omega
  have hstep : equalProgressStep l = Scheduler.equalProgressStep l := by
    funext p req
    exact equalProgressStep_eq l p req
  induction fuel generalizing p reqs with
  | zero => rw [equalProgressLoop, Scheduler.equalProgressLoop, htest]
  | succ fuel ih =>
    obtain ⟨q, reqs', hround, hq, hgrown, -, hsum⟩ :=
      equalProgressRound_spec (p := { p with numTokensSingleLoop := 0 }) hcap hreqs
    have hnonneg : 0 ≤ q.numTokensSingleLoop := by
      have hle : (reqs.map fun r => (r.contextChunkSize : ℤ)).sum ≤ (reqs'.map fun r => (r.contextChunkSize : ℤ)).sum :=
        by
        apply List.Forall₂.sum_le_sum
        rw [List.forall₂_map_left_iff, List.forall₂_map_right_iff]
        exact hgrown.imp fun _ _ h => by exact_mod_cast h.grown
      simp only at hsum
      omega
    rw [equalProgressLoop, Scheduler.equalProgressLoop, htest, hstep, hround]
    simp only
    rw [ih hq (forall_mem_of_forall₂ (fun _ _ h => h.whole) hgrown) hnonneg (by
      rw [decide_eq_decide]
      omega)]

variable {m n n' : ℤ} {cap : Option ℤ}

theorem tdiv_mul_eq (u : ℕ) (hm : 0 ≤ m) : m.tdiv u * u = m / u * u := by
  rw [Int.tdiv_eq_ediv_of_nonneg hm]

theorem foldl_nextSnapshotPoint (pos : ℕ) (next : Option ℕ) (points : List ℕ) :
    points.foldl
      (fun next point =>
        if pos < point && next.all (fun n => decide (point < n)) then some point else next) next =
      (next.toList ++ points.filter (pos < ·)).min? := by
  induction points generalizing next with
  | nil => cases next <;> rfl
  | cons point points ih =>
    rw [List.foldl_cons, ih]
    by_cases hlater : pos < point
    · cases next with
      | none => simp [hlater]
      | some n =>
        by_cases hless : point < n
        · simp [hlater, hless]
          cases (points.filter (pos < ·)).min? <;> simp only [Option.elim] <;> omega
        · simp [hlater, hless]
          cases (points.filter (pos < ·)).min? <;> simp only [Option.elim] <;> omega
    · simp [hlater]

theorem forcedContextChunkSize_eq (req : LlmRequest) : forcedContextChunkSize req = req.forcedContextChunkSize := by
  unfold forcedContextChunkSize LlmRequest.forcedContextChunkSize
  rw [nextSnapshotPoint, foldl_nextSnapshotPoint, Option.toList_none, List.nil_append]
  split_ifs with hempty
  · rw [List.isEmpty_iff.1 hempty]
    rfl
  · cases (req.expectSnapshotPoints.filter (req.contextCurrentPosition < ·)).min? <;> rfl

section Limits

variable (hmax : ∀ m ∈ l.maxContextLength, 0 ≤ m)

include hmax

theorem fcfsSize_eq (req : LlmRequest) (hcap : ∀ c ∈ cap, 0 ≤ c) : fcfsSize l cap req = Scheduler.fcfsSize l cap req := by
  obtain ⟨hnonneg, hle, -⟩ := fcfsTarget_spec hmax req hcap
  show (if fcfsTarget l cap req ≠ req.contextRemainingLength then
    (fcfsTarget l cap req).tdiv l.unitSize * l.unitSize else fcfsTarget l cap req) = _
  rw [Scheduler.fcfsSize, tdiv_mul_eq _ hnonneg]
  simp only [lt_iff_le_and_ne, hle, true_and]

theorem fcfsStep_eq (req : LlmRequest) (hcap : ∀ c ∈ cap, 0 ≤ c) : fcfsStep l cap req = Scheduler.fcfsStep l cap req := by
  obtain ⟨hnonneg, hle, hboundary, -⟩ := fcfsSize_spec hmax req hcap
  obtain ⟨req', hset, hchunk, -⟩ := setContextChunkSize_ok .firstComeFirstServed hnonneg hle
    (hboundary.imp_right .inl)
  simp only [fcfsStep, Scheduler.fcfsStep, fcfsSize_eq hmax req hcap, hset, hchunk]

theorem fcfs_eq (hcap : l.NonNeg) (reqs : List LlmRequest) :
    sweep (fcfsStep l) l.capacity reqs = sweep (Scheduler.fcfsStep l) l.capacity reqs := by
  apply sweep_congr (fun cap => ∀ c ∈ cap, 0 ≤ c) (fun _ => True) _ hcap fun _ _ => trivial
  intro cap req hinv _
  refine ⟨fcfsStep_eq hmax req hinv, fun t req' hstep => ?_⟩
  obtain ⟨req'', hstep', hfit, -⟩ := fcfsStep_spec hmax req hinv
  rw [fcfsStep_eq hmax req hinv, hstep', Except.ok.injEq, Prod.mk.injEq] at hstep
  rw [← hstep.1]
  intro c hc
  obtain ⟨d, hd, rfl⟩ := map_eq_some_iff.1 hc
  have := hfit d hd
  omega

theorem forcedSize_eq (total : ℤ) (req : LlmRequest) : forcedSize l total req = Scheduler.forcedSize l total req := by
  unfold forcedSize Scheduler.forcedSize
  rw [forcedContextChunkSize_eq]
  extract_lets wanted byLen byLen'
  have hsame : byLen = byLen' ∧ 0 ≤ byLen' := by
    cases hm : l.maxContextLength with
    | none => simp [byLen, byLen', hm, wanted]
    | some m =>
      have hm0 := hmax m hm
      have halign := ediv_mul_nonneg l.unitSize hm0
      simp only [byLen, byLen', hm, tdiv_mul_eq _ hm0]
      refine ⟨trivial, ?_⟩
      split_ifs
      · exact halign
      · exact Int.natCast_nonneg _
  rw [hsame.1]
  cases hc : l.capacity with
  | none => rfl
  | some c =>
    simp only
    rw [tdiv_mul_eq _ (by omega)]

theorem chunkForced_eq (hcap : l.NonNeg) (reqs : List LlmRequest) : chunkForced l reqs = Scheduler.chunkForced l reqs := by
  have hstep : forcedStep l = Scheduler.forcedStep l := by
    funext total req
    have hsize := forcedSize_eq hmax total req
    unfold forcedStep Scheduler.forcedStep
    generalize forcedSize l total req = size at hsize ⊢
    subst hsize
    rfl
  by_cases hsmall : ∃ m ∈ l.maxContextLength, m < l.unitSize
  · obtain ⟨m, hm, hlt⟩ := hsmall
    simp only [chunkForced, Scheduler.chunkForced, mem_def.1 hm, if_pos hlt]
  have hunit : ∀ m ∈ l.maxContextLength, (l.unitSize : ℤ) ≤ m := by
    intro m hm
    by_contra hlt
    exact hsmall ⟨m, hm, not_le.1 hlt⟩
  obtain ⟨total, reqs', hrun, hpython, -⟩ := forcedSweep_spec hunit hcap reqs
  have hcpp : (sweep (forcedStep l) 0 reqs).map Prod.snd = .ok reqs' := by
    rw [hstep, hrun]
    rfl
  unfold chunkForced Scheduler.chunkForced
  cases hm : l.maxContextLength with
  | none => exact hcpp.trans hpython.symm
  | some m => simp only [hcpp, hpython]

theorem assignChunks_eq (hcap : l.NonNeg) (fuel : ℕ) (policy : ChunkingPolicy)
    (reqs : List LlmRequest) : assignChunks l fuel policy reqs = Scheduler.assignChunks l fuel policy reqs := by
  cases policy with
  | equalProgress =>
    refine equalProgressLoop_eq hcap ?_ (by decide)
    intro req hreq
    obtain ⟨req₀, -, rfl⟩ := List.mem_map.1 hreq
    exact whole_zero _ req₀
  | firstComeFirstServed =>
    simp only [assignChunks, Scheduler.assignChunks, chunkFcfs, fcfs_eq hmax hcap]
  | forceChunk =>
    simp only [assignChunks, Scheduler.assignChunks, chunkForced_eq hmax hcap]

end Limits

/-- When the draft passes agree on `reqs`, with `numCtxTokens` charged so far in Python and `numCtxTokens'` in C++: a
last chunk with draft tokens is within the maximal context length, and the draft tokens that Python keeps fit in what
C++ leaves of the capacity. -/
def DraftsAgree (l : ChunkLimits) : ℤ → ℤ → List LlmRequest → Prop
  | _, _, [] => True
  | numCtxTokens, numCtxTokens', req :: rest =>
    if req.isLastContextChunk && req.hasDraftTokens then
      (∀ m ∈ l.maxContextLength, (req.contextChunkSize : ℤ) ≤ m) ∧
      (∀ c ∈ l.capacity, keptDrafts l numCtxTokens req ≤ c - numCtxTokens') ∧
      DraftsAgree l (charge l numCtxTokens (keptDrafts l numCtxTokens req))
        (charge l numCtxTokens' (chargedSpace l numCtxTokens' req)) rest
    else DraftsAgree l numCtxTokens numCtxTokens' rest

theorem remainingSpaceForDraftTokens_nonneg (h : ∀ m ∈ l.maxContextLength, (req.contextChunkSize : ℤ) ≤ m) :
    0 ≤ remainingSpaceForDraftTokens l req := by
  have hunit := l.unitSize_pos
  have hrem : ((req.contextChunkSize : ℤ) % l.unitSize) < l.unitSize := Int.emod_lt_of_pos _ (by omega)
  unfold remainingSpaceForDraftTokens
  cases hm : l.maxContextLength with
  | none =>
    simp only
    split_ifs <;> omega
  | some m =>
    have := h m hm
    simp only
    split_ifs <;> omega

/-- With room for the chunk itself, the C++ step keeps as many draft tokens as the charged room holds. -/
theorem fitDraftTokensStep_eq (hlast : req.isLastContextChunk && req.hasDraftTokens) (hspace : 0 ≤ chargedSpace l n req) :
    fitDraftTokensStep l n req = .ok (charge l n (chargedSpace l n req),
      { req with numDraftTokens := min req.numDraftTokens (chargedSpace l n req).toNat }) := by
  unfold fitDraftTokensStep
  obtain ⟨space, hk⟩ := Int.eq_ofNat_of_zero_le hspace
  simp only [if_pos hlast, hk, Int.toNat_natCast]
  by_cases hdrop : space < req.numDraftTokens
  · rw [if_pos (by omega), discardDraftTokens_kept hdrop, min_eq_right hdrop.le]
    rfl
  · rw [if_neg (by omega), min_eq_left (not_lt.1 hdrop)]

theorem fitDraftTokensStep_error (hlast : req.isLastContextChunk && req.hasDraftTokens) (hm : m ∈ l.maxContextLength)
    (hlong : m < req.contextChunkSize) (n : ℤ) : ∃ e, fitDraftTokensStep l n req = .error e := by
  have hspace : chargedSpace l n req < 0 := by
    simp only [chargedSpace, remainingSpaceForDraftTokens, mem_def.1 hm]
    cases l.capacity <;> simp only <;> omega
  have hpos : 0 < (req.numDraftTokens : ℤ) - chargedSpace l n req := by omega
  have hmany : (req.numDraftTokens : ℤ) < req.numDraftTokens - chargedSpace l n req := by omega
  simp only [fitDraftTokensStep, discardDraftTokens, if_pos hlast, if_pos hpos, if_neg (not_le.2 hpos), if_pos hmany]
  exact ⟨_, rfl⟩

/-- The C++ account never falls behind the Python one nor passes the capacity. Both sides keep the same draft tokens of
a request when those that Python keeps fit in the C++ account. -/
theorem chargedSpace_spec (hspace : 0 ≤ remainingSpaceForDraftTokens l req) (hle : n ≤ n') (hcap : ∀ c ∈ l.capacity, n' ≤ c) :
    0 ≤ chargedSpace l n' req ∧ charge l n (keptDrafts l n req) ≤ charge l n' (chargedSpace l n' req) ∧
      (∀ c ∈ l.capacity, charge l n' (chargedSpace l n' req) ≤ c) ∧
      ((keptDrafts l n req).toNat = min req.numDraftTokens (chargedSpace l n' req).toNat ↔
        ∀ c ∈ l.capacity, keptDrafts l n req ≤ c - n') := by
  unfold charge keptDrafts chargedSpace
  cases hc : l.capacity with
  | none =>
    simp only [isSome_none, if_false, mem_def, reduceCtorEq, false_implies, implies_true, iff_true, true_and]
    omega
  | some c =>
    have := hcap c hc
    simp only [isSome_some, if_true, mem_def, some.injEq, forall_eq']
    omega

/-- The two draft passes end with the same requests exactly when `DraftsAgree` holds. -/
theorem fitDraftTokens_agree_iff (hle : n ≤ n') (hcap : ∀ c ∈ l.capacity, n' ≤ c) (reqs : List LlmRequest) :
    SweepsAgree (Scheduler.fitDraftTokensStep l) (fitDraftTokensStep l) n n' reqs ↔ DraftsAgree l n n' reqs := by
  induction reqs generalizing n n' with
  | nil => simp [DraftsAgree, SweepsAgree]
  | cons req rest ih =>
    by_cases hlast : req.isLastContextChunk && req.hasDraftTokens
    · rw [DraftsAgree, if_pos hlast]
      by_cases hlong : ∀ m ∈ l.maxContextLength, (req.contextChunkSize : ℤ) ≤ m
      · obtain ⟨hnonneg, hcharge, hfits, hkept⟩ := chargedSpace_spec (remainingSpaceForDraftTokens_nonneg hlong) hle hcap
        rw [sweepsAgree_cons (fitDraftTokensStep_last hlast n) (fitDraftTokensStep_eq hlast hnonneg), ih hcharge hfits, ← hkept]
        simp only [mk.injEq, true_and, and_true]
        exact ⟨fun h => ⟨hlong, h⟩, .right⟩
      · obtain ⟨m, hm, hlt⟩ : ∃ m ∈ l.maxContextLength, m < req.contextChunkSize := by
          simpa using hlong
        obtain ⟨e, herror⟩ := fitDraftTokensStep_error hlast hm hlt n'
        constructor
        · intro hagree
          obtain ⟨u, u', out, -, hout⟩ := hagree
          rw [sweep_cons_error herror] at hout
          cases hout
        · rintro ⟨hfit, -⟩
          exact absurd (hfit m hm) (not_le.2 hlt)
    · have hcpp : fitDraftTokensStep l n' req = .ok (n', req) := by
        rw [fitDraftTokensStep, if_neg hlast]
      rw [DraftsAgree, if_neg hlast, ← ih hle hcap, sweepsAgree_cons (fitDraftTokensStep_other hlast n) hcpp]
      simp

/-- Python and C++ give every context request the same chunk. Both finish, with the same draft tokens, exactly when
forced chunks fit in the maximal context length and the draft passes agree on the chunks. -/
theorem setCtxRequestsChunkSize_agree_iff (l : ChunkLimits) (policy : ChunkingPolicy) (reqs : List LlmRequest)
    (hcap : l.NonNeg) (hmax : ∀ m ∈ l.maxContextLength, 0 ≤ m) :
    ∃ rounds, ∀ fuel, rounds ≤ fuel →
      assignChunks l fuel policy reqs = Scheduler.assignChunks l fuel policy reqs ∧
      ((∃ out, Scheduler.setCtxRequestsChunkSize l fuel policy reqs = .ok out ∧
          setCtxRequestsChunkSize l fuel policy reqs = .ok out) ↔
        (policy = .forceChunk → ∀ m ∈ l.maxContextLength, (l.unitSize : ℤ) ≤ m) ∧
        ∀ chunked, Scheduler.assignChunks l fuel policy reqs = .ok chunked →
          DraftsAgree l (chunked.map chunkCompute).sum (chunked.map chunkCompute).sum chunked) := by
  refine ⟨roundBound reqs, fun fuel hfuel => ⟨assignChunks_eq hmax hcap fuel policy reqs, ?_⟩⟩
  by_cases hforced : policy = .forceChunk → ∀ m ∈ l.maxContextLength, (l.unitSize : ℤ) ≤ m
  · have hlimits : ∀ m ∈ l.maxContextLength, 0 ≤ m ∧ (policy = .forceChunk → (l.unitSize : ℤ) ≤ m) :=
      fun m hm => ⟨hmax m hm, fun hpolicy => hforced hpolicy m hm⟩
    obtain ⟨chunked, hassign, -, hfit⟩ := assignChunks_spec hcap hlimits hfuel
    have hpython : Scheduler.setCtxRequestsChunkSize l fuel policy reqs = Scheduler.fitDraftTokens l chunked := by
      rw [Scheduler.setCtxRequestsChunkSize, hassign]
      rfl
    have hcpp : setCtxRequestsChunkSize l fuel policy reqs = fitDraftTokens l chunked := by
      rw [setCtxRequestsChunkSize, assignChunks_eq hmax hcap, hassign]
      rfl
    rw [hpython, hcpp]
    unfold Scheduler.fitDraftTokens fitDraftTokens
    rw [← sweepsAgree_iff_map_snd, fitDraftTokens_agree_iff le_rfl hfit]
    simp only [hassign, Except.ok.injEq, forall_eq']
    exact ⟨fun h => ⟨hforced, h⟩, And.right⟩
  · -- forced chunks longer than the maximal context length: both sides raise
    obtain ⟨rfl, m, hm, hsmall⟩ : policy = .forceChunk ∧ ∃ m ∈ l.maxContextLength, m < (l.unitSize : ℤ) := by
      simpa using hforced
    constructor
    · rintro ⟨out, hout, -⟩
      rw [setCtxRequestsChunkSize_forced_error hm hsmall] at hout
      simp at hout
    · rintro ⟨hfits, -⟩
      exact absurd hfits hforced

/-- Two short contexts with draft tokens, and room for all of them. -/
theorem setCtxRequestsChunkSize_agree_short_contexts : let l : ChunkLimits := ⟨some 16, some 32, 4, by decide⟩
    let reqs := [{ arrived 1 5 with numDraftTokens := 2 }, { arrived 2 3 with numDraftTokens := 3 }]
    let out := [{ arrived 1 5 with numDraftTokens := 2 }, { arrived 2 3 with numDraftTokens := 1 }]
    Scheduler.setCtxRequestsChunkSize l 10 .equalProgress reqs = .ok out ∧
      setCtxRequestsChunkSize l 10 .equalProgress reqs = .ok out ∧
      ∃ rounds, ∀ fuel, rounds ≤ fuel →
        assignChunks l fuel .equalProgress reqs = Scheduler.assignChunks l fuel .equalProgress reqs ∧
        ((∃ out, Scheduler.setCtxRequestsChunkSize l fuel .equalProgress reqs = .ok out ∧
            setCtxRequestsChunkSize l fuel .equalProgress reqs = .ok out) ↔
          (ChunkingPolicy.equalProgress = .forceChunk → ∀ m ∈ l.maxContextLength, (l.unitSize : ℤ) ≤ m) ∧
          ∀ chunked, Scheduler.assignChunks l fuel .equalProgress reqs = .ok chunked →
            DraftsAgree l (chunked.map chunkCompute).sum (chunked.map chunkCompute).sum chunked) := by
  refine ⟨by decide +kernel, by decide +kernel, setCtxRequestsChunkSize_agree_iff _ _ _ ?_ ?_⟩
  · simp [ChunkLimits.NonNeg]
  · simp

/-- Both sides raise on forced chunks above the maximal context length. The free rest of a unit, charged in C++ for one
draft token, costs the next request two of its three. A cached context makes a chunk longer than that length, and C++
then discards more draft tokens than there are. -/
theorem setCtxRequestsChunkSize_disagree :
    (Scheduler.setCtxRequestsChunkSize ⟨none, some 2, 4, by decide⟩ 0 .forceChunk [arrived 1 8] =
      .error (.forcedChunkExceedsMaxContextLength 4 2)) ∧
    (let l : ChunkLimits := ⟨some 6, none, 4, by decide⟩
     let first := { arrived 1 1 with numDraftTokens := 1 }
     let second := { arrived 2 1 with numDraftTokens := 3 }
     Scheduler.setCtxRequestsChunkSize l 0 .firstComeFirstServed [first, second] = .ok [first, second] ∧
     setCtxRequestsChunkSize l 0 .firstComeFirstServed [first, second] = .ok [first, { second with numDraftTokens := 1 }]) ∧
    (let l : ChunkLimits := ⟨none, some 50, 8, by decide⟩
     let cached := { arrived 1 100 with estimatedReusableTokens := 90, numDraftTokens := 1 }
     Scheduler.setCtxRequestsChunkSize l 0 .firstComeFirstServed [cached] = .ok [{ cached with numDraftTokens := 0 }] ∧
     setCtxRequestsChunkSize l 0 .firstComeFirstServed [cached] = .error (.discardTooMany 51 1)) := by
  decide +kernel

end TrtLlm.Scheduler.Cpp
