import TrtLlm.Scheduler.V2.Basic

/-!
# The token budget of the V2 scheduler

Phase 1 charges what it schedules. In phase 2 the draft tokens of a last chunk are added behind the check of the
budget, and without prefix-aware scheduling a context is checked with the length it has before it is prepared. These
are the only ways to pass the limit.
-/

namespace TrtLlm.Scheduler

open BudgetTracker

namespace BudgetTracker

variable {b : BudgetTracker} {req : LlmRequest}

theorem canFitTokens_iff {n : ℕ} : b.canFitTokens n ↔ ∀ m ∈ b.maxNumTokens, b.numTokens + n ≤ m := by
  unfold canFitTokens
  cases b.maxNumTokens <;> simp

structure SameTokens (b b' : BudgetTracker) : Prop where
  maxNumTokens : b'.maxNumTokens = b.maxNumTokens
  numTokens : b'.numTokens = b.numTokens

theorem sameTokens_foldl_preClaimPeft (reqs : List LlmRequest) (b : BudgetTracker) :
    SameTokens b (reqs.foldl preClaimPeft b) := by
  induction reqs generalizing b with
  | nil => exact ⟨rfl, rfl⟩
  | cons req rest ih =>
    have hhead : SameTokens b (b.preClaimPeft req) := by
      unfold preClaimPeft
      split <;> exact ⟨rfl, rfl⟩
    have hrest := ih (b.preClaimPeft req)
    exact ⟨hrest.maxNumTokens.trans hhead.maxNumTokens, hrest.numTokens.trans hhead.numTokens⟩

@[simp] theorem commit_numTokens (n pages : ℕ) : (b.commit req n pages).numTokens = b.numTokens + n := by
  unfold commit
  split_ifs <;> rfl

@[simp] theorem commit_maxNumTokens (n pages : ℕ) : (b.commit req n pages).maxNumTokens = b.maxNumTokens := by
  unfold commit
  split_ifs <;> rfl

end BudgetTracker

namespace KVCacheV2Scheduler

variable {κ : Type} {s : KVCacheV2Scheduler κ} {st st' : LoopState κ} {req req' : LlmRequest}

def generationTokens (req : LlmRequest) : ℕ := req.beamWidth + req.numDraftTokens

/-- The tokens of a context request: its chunk, or its whole context without chunking, and the draft tokens behind the
end of the context. -/
def contextTokens (s : KVCacheV2Scheduler κ) (req : LlmRequest) : ℕ :=
  match s.ctxChunkConfig with
  | none => req.contextRemainingLength + req.numDraftTokens
  | some _ => req.contextChunkSize + if req.isLastContextChunk then req.numDraftTokens else 0

def tokensOf (s : KVCacheV2Scheduler κ) (encoderRequests contextRequests generationRequests : List LlmRequest) : ℕ :=
  (encoderRequests.map (·.encoderOutputLen)).sum + (contextRequests.map s.contextTokens).sum +
    (generationRequests.map generationTokens).sum

def usedTokens (s : KVCacheV2Scheduler κ) (st : LoopState κ) : ℕ := s.tokensOf st.scheduledEncoder st.scheduledCtx st.scheduledGen

def SchedulerOutput.tokens (s : KVCacheV2Scheduler κ) (out : SchedulerOutput) : ℕ :=
  s.tokensOf out.encoderRequests out.contextRequests out.generationRequests

/-- What is scheduled is what is committed, and it is within the limit. -/
structure Accounted (s : KVCacheV2Scheduler κ) (st : LoopState κ) : Prop where
  limit : st.budget.maxNumTokens = s.maxNumTokens
  used : s.usedTokens st = st.budget.numTokens
  within : ∀ m ∈ s.maxNumTokens, st.budget.numTokens ≤ m

theorem Accounted.frame (h : Accounted s st) (hbudget : st.budget.SameTokens st'.budget)
    (hencoder : st'.scheduledEncoder = st.scheduledEncoder) (hctx : st'.scheduledCtx = st.scheduledCtx)
    (hgen : st'.scheduledGen = st.scheduledGen) : Accounted s st' where
  limit := hbudget.maxNumTokens.trans h.limit
  used := by
    rw [usedTokens, hencoder, hctx, hgen, hbudget.numTokens]
    exact h.used
  within := by
    rw [hbudget.numTokens]
    exact h.within

theorem Accounted.initialState (kv : κ) (reqs : List LlmRequest) : Accounted s (s.initialState kv reqs) := by
  obtain ⟨hmax, hnum⟩ := sameTokens_foldl_preClaimPeft
    (reqs.filter (·.isGenerationToCompleteState)) ⟨s.maxNumTokens, s.maxNumRequests, 0, 0, s.peftCacheManager, 0, []⟩
  refine ⟨hmax, ?_, fun m _ => ?_⟩
  · exact hnum.symm
  · exact hnum.symm ▸ Nat.zero_le m

variable {inflight : List ℕ} {tokens : ℕ} {chunking : Bool} {budget : BudgetTracker} {remainingBudget : Option ℕ}

structure Passed (st st' : LoopState κ) : Prop where
  budget : st.budget.SameTokens st'.budget
  encoder : st'.scheduledEncoder = st.scheduledEncoder
  ctx : st'.scheduledCtx = st.scheduledCtx
  gen : st'.scheduledGen = st.scheduledGen
  evicted : st'.evicted = st.evicted
  beamWidth : st'.scheduledBeamWidth = st.scheduledBeamWidth

theorem gate_pass (h : s.gate inflight st req = .pass st') : Passed st st' := by
  unfold gate at h
  split_ifs at h with hinflight hdisagg hfull hrange hpending
  · cases h
    exact ⟨⟨rfl, rfl⟩, rfl, rfl, rfl, rfl, rfl⟩
  · split at h
    · cases h
    split at h <;> cases h
    · exact ⟨⟨rfl, rfl⟩, rfl, rfl, rfl, rfl, rfl⟩
    · refine ⟨?_, rfl, rfl, rfl, rfl, rfl⟩
      split_ifs <;> exact ⟨rfl, rfl⟩
  · cases h
    exact ⟨⟨rfl, rfl⟩, rfl, rfl, rfl, rfl, rfl⟩
  · cases h
    exact ⟨⟨rfl, rfl⟩, rfl, rfl, rfl, rfl, rfl⟩
  · split at h <;> cases h

theorem Accounted.gate (h : Accounted s st) (hgate : s.gate inflight st req = .pass st') : Accounted s st' := by
  have hpass := gate_pass hgate
  exact h.frame hpass.budget hpass.encoder hpass.ctx hpass.gen

structure SameBatch (st st' : LoopState κ) : Prop where
  budget : st'.budget = st.budget
  encoder : st'.scheduledEncoder = st.scheduledEncoder
  ctx : st'.scheduledCtx = st.scheduledCtx
  gen : st'.scheduledGen = st.scheduledGen

theorem allocateGeneration_sameBatch (st : LoopState κ) (req : LlmRequest) (behind : List LlmRequest) :
    SameBatch st (s.allocateGeneration st req behind).2.2 := by
  unfold allocateGeneration
  split
  · exact ⟨rfl, rfl, rfl, rfl⟩
  · simp only
    split_ifs <;> exact ⟨rfl, rfl, rfl, rfl⟩

inductive GenSpec (st : LoopState κ) (req : LlmRequest) (pages : ℕ) : GenVisit κ → Prop where
  | pass (behind : ℕ) : GenSpec st req pages (.next behind st)
  | stop (st' : LoopState κ) (hbatch : SameBatch st st') : GenSpec st req pages (.stop st')
  | scheduled (behind : ℕ) (st' : LoopState κ) (hbatch : SameBatch st st')
      (hfit : st.budget.canFitTokens (generationTokens req)) :
      GenSpec st req pages (.next behind { st' with
        scheduledGen := st'.scheduledGen ++ [req]
        budget := st'.budget.commit req (generationTokens req) pages })

theorem visitGeneration_spec (st : LoopState κ) (req : LlmRequest) (pages : ℕ) (behind : List LlmRequest) :
    GenSpec st req pages (s.visitGeneration st req pages behind) := by
  unfold visitGeneration
  simp only
  split_ifs with hfit hbeam
  · exact .stop st ⟨rfl, rfl, rfl, rfl⟩
  · exact .pass behind.length
  have hsame := allocateGeneration_sameBatch (s := s) { st with scheduledBeamWidth := req.beamWidth } req behind
  have hbatch : SameBatch st
      (s.allocateGeneration { st with scheduledBeamWidth := req.beamWidth } req behind).2.2 :=
    ⟨hsame.budget, hsame.encoder, hsame.ctx, hsame.gen⟩
  split
  · rename_i st₁ hresult
    rw [hresult] at hbatch
    exact .stop st₁ hbatch
  · rename_i n st₁ hresult
    rw [hresult] at hbatch
    exact .scheduled n st₁ hbatch (by simpa [generationTokens] using hfit)

theorem Accounted.schedule (h : Accounted s st) {pages : ℕ} (hfit : st.budget.canFitTokens (generationTokens req)) :
    Accounted s { st with
      scheduledGen := st.scheduledGen ++ [req]
      budget := st.budget.commit req (generationTokens req) pages } where
  limit := by simpa using h.limit
  used := by
    have hused := h.used
    simp only [usedTokens, tokensOf, List.map_append, List.sum_append, List.map_cons, List.map_nil, List.sum_cons,
      List.sum_nil, commit_numTokens] at hused ⊢
    omega
  within m hm := by
    rw [commit_numTokens]
    exact canFitTokens_iff.1 hfit m (h.limit ▸ hm)

theorem generationPhase_induct {I : LoopState κ → Prop}
    (hgate : ∀ st st' req, I st → s.gate inflight st req = .pass st' → I st')
    (hbatch : ∀ st st', I st → SameBatch st st' → I st')
    (hschedule : ∀ st req pages, I st → st.budget.canFitTokens (generationTokens req) → I { st with
      scheduledGen := st.scheduledGen ++ [req], budget := st.budget.commit req (generationTokens req) pages })
    (h : I st) (window : ℕ) (reqs : List LlmRequest) :
    I (s.generationPhase inflight st window reqs) := by
  induction reqs generalizing st window with
  | nil => cases window <;> exact h
  | cons req rest ih =>
    cases window with
    | zero => exact h
    | succ window =>
      rw [KVCacheV2Scheduler.generationPhase]
      cases hpass : s.gate inflight st req with
      | stop => exact h
      | pass st₁ => exact ih (hgate st st₁ req h hpass) window
      | generation pages =>
        have hspec := visitGeneration_spec (s := s) st req pages (rest.take window)
        simp only
        generalize s.visitGeneration st req pages (rest.take window) = visit at hspec ⊢
        cases hspec with
        | pass n => exact ih h n
        | stop st₁ hsame => exact hbatch st st₁ h hsame
        | scheduled n st₁ hsame hfit =>
          exact ih (hschedule st₁ req pages (hbatch st st₁ h hsame) (hsame.budget ▸ hfit)) n

theorem Accounted.generationPhase (h : Accounted s st) (window : ℕ) (reqs : List LlmRequest) :
    Accounted s (s.generationPhase inflight st window reqs) := by
  apply generationPhase_induct _ _ _ h
  · exact fun _ _ _ h => h.gate
  · exact fun _ _ h hbatch => h.frame (by rw [hbatch.budget]; exact ⟨rfl, rfl⟩) hbatch.encoder hbatch.ctx hbatch.gen
  · exact fun _ _ _ h => h.schedule

theorem Accounted.afterGeneration (kv : κ) (inflight : List ℕ) (active : List LlmRequest) :
    Accounted s (s.afterGeneration kv inflight active) :=
  (Accounted.initialState kv _).generationPhase _ _

/-- A context request that uses more than was checked: the draft tokens of a last chunk, or a context that became longer
when it was prepared. -/
def UncheckedContext (s : KVCacheV2Scheduler κ) (req req' : LlmRequest) : Prop :=
  match s.ctxChunkConfig with
  | none => ¬s.enablePrefixAwareScheduling ∧ req.contextRemainingLength < req'.contextRemainingLength
  | some _ => req'.isLastContextChunk ∧ 0 < req'.numDraftTokens

variable {kv kv' : κ} {n m chunk : ℕ}

theorem tryScheduleCrossContext_scheduled {tokens' : ℕ} {chunking' : Bool}
    (h : s.tryScheduleCrossContext kv req tokens chunking = (.scheduled req' tokens' chunking', kv')) :
    req' = req ∧ tokens' = tokens := by
  unfold tryScheduleCrossContext at h
  split_ifs at h
  · cases h
    exact ⟨rfl, rfl⟩
  · cases h
  · split at h <;> cases h
    exact ⟨rfl, rfl⟩

theorem checkContextTokens_ok {contextTokens draftLen : ℕ}
    (h : s.checkContextTokens budget contextTokens draftLen = .ok true) :
    budget.canFitTokens (contextTokens + draftLen) := by
  unfold checkContextTokens at h
  split_ifs at h with hfit hlong
  · cases h
  · simpa using hfit

/-- Without chunking the context is checked with the length it has after or before it is prepared. -/
theorem tryScheduleContextFull_scheduled
    (h : s.tryScheduleContextFull budget kv req = .ok (.scheduled req' tokens chunking, kv')) :
    budget.canFitTokens ((if s.enablePrefixAwareScheduling then req'.contextRemainingLength
      else req.contextRemainingLength) + req'.numDraftTokens) := by
  unfold tryScheduleContextFull at h
  by_cases haware : s.enablePrefixAwareScheduling
  · simp only [haware, Bool.true_eq_false, if_false] at h ⊢
    split_ifs at h with hprepared
    · cases h
    split at h
    · cases h
    · cases h
    rename_i hcheck
    split at h
    · cases h
    · obtain ⟨rfl, -⟩ := tryScheduleCrossContext_scheduled (Except.ok.inj h)
      exact checkContextTokens_ok hcheck
  · simp only [haware, Bool.false_eq_true, if_false] at h ⊢
    split at h
    · cases h
    · cases h
    rename_i hcheck
    split_ifs at h with hprepared
    · cases h
    split at h
    · cases h
    · obtain ⟨rfl, -⟩ := tryScheduleCrossContext_scheduled (Except.ok.inj h)
      exact checkContextTokens_ok hcheck

theorem capped_le {limit : Option ℕ} (hm : m ∈ limit) : capped limit n ≤ m := by
  rw [Option.mem_def.1 hm]
  exact min_le_right n m

theorem fits_iff {limit : Option ℕ} : fits limit n ↔ ∀ m ∈ limit, n ≤ m := by
  cases limit <;> simp [fits]

theorem budgetChunkSize_le (config : ContextChunkingConfig) (before : ℕ) (req : LlmRequest)
    (hm : m ∈ remainingBudget) : s.budgetChunkSize config remainingBudget before req ≤ m := by
  unfold budgetChunkSize
  simp only
  split_ifs
  all_goals first
    | exact capped_le hm
    | exact (Nat.div_mul_le_self _ _).trans (capped_le hm)

variable {remaining : ℕ} {reqs : List LlmRequest}

theorem snapChunk_le {lo start stop : ℕ} (hm : m ∈ remainingBudget) (hchunk : chunk ≤ m)
    (hstart : start ≤ lo + chunk) : s.snapChunk remainingBudget remaining lo chunk start stop ≤ m := by
  have hdown : (if 0 < s.chunkUnitSize then start / s.chunkUnitSize * s.chunkUnitSize else start) ≤ start := by
    split_ifs
    · exact Nat.div_mul_le_self _ _
    · exact le_refl start
  have hsnap : ∀ up down : ℕ, down ≤ start →
      (if fits remainingBudget up && fits s.maxContextLength up && decide (up ≤ remaining)
          && decide (chunk < up) then up
        else if down ≤ lo then 0 else down - lo) ≤ m := by
    intro up down hle
    split_ifs with hup hleft
    · simp only [Bool.and_eq_true] at hup
      exact fits_iff.1 hup.1.1.1 m hm
    · exact Nat.zero_le m
    · omega
  exact hsnap _ _ hdown

theorem blockStart_le (cumsum : ℕ → ℤ) (pos : ℕ) : blockStart cumsum pos ≤ pos := by
  induction pos with
  | zero => exact le_refl 0
  | succ pos ih =>
    rw [blockStart]
    split_ifs
    · exact ih.trans (Nat.le_succ pos)
    · exact le_rfl

theorem alignChunkToMmBlock_le {chunkSize' : ℕ} (hm : m ∈ remainingBudget) (hchunk : chunk ≤ m)
    (h : s.alignChunkToMmBlock req chunk remainingBudget remaining = .ok chunkSize') : chunkSize' ≤ m := by
  unfold alignChunkToMmBlock at h
  split at h
  · cases h
    exact hchunk
  simp only at h
  split_ifs at h
  · cases h
    exact hchunk
  · cases h
    exact hchunk
  · cases h
    exact snapChunk_le hm hchunk (blockStart_le _ _)

theorem scheduleChunk_scheduled (h : s.scheduleChunk kv req chunk = (.scheduled req' tokens chunking, kv')) :
    req'.contextChunkSize ≤ chunk := by
  unfold scheduleChunk at h
  simp only at h
  split at h
  · cases h
  · obtain ⟨rfl, -⟩ := tryScheduleCrossContext_scheduled h
    exact min_le_left _ _

theorem tryScheduleContextChunked_scheduled {config : ContextChunkingConfig}
    (h : s.tryScheduleContextChunked config budget kv req = .ok (.scheduled req' tokens chunking, kv')) :
    budget.canFitTokens req'.contextChunkSize := by
  rw [canFitTokens_iff]
  intro m hm
  have hremaining : budget.remainingTokens = some ((m : ℤ) - budget.numTokens) := by
    rw [remainingTokens, Option.mem_def.1 hm]
    rfl
  unfold tryScheduleContextChunked at h
  simp only [hremaining] at h
  split_ifs at h with hmin hprepared hzero
  · cases h
  · cases h
  · cases h
  have hbudget := budgetChunkSize_le (s := s) config req.contextRemainingLength
    (s.kvCacheManager.prepareContext kv req).1.request (m := ((m : ℤ) - budget.numTokens).toNat) rfl
  split at h
  · cases h
  · cases h
  rename_i chunk halign
  have hchunk := scheduleChunk_scheduled (Except.ok.inj h)
  have haligned := alignChunkToMmBlock_le rfl hbudget halign
  omega

theorem canFitTokens_of_checked (h : s.tryScheduleContext budget kv req = .ok (.scheduled req' tokens chunking, kv'))
    (hchecked : ¬s.UncheckedContext req req') : budget.canFitTokens (s.contextTokens req') := by
  unfold tryScheduleContext at h
  unfold UncheckedContext at hchecked
  unfold contextTokens
  rw [canFitTokens_iff]
  intro m hm
  cases hconfig : s.ctxChunkConfig with
  | none =>
    simp only [hconfig] at h hchecked
    have hfit := canFitTokens_iff.1 (tryScheduleContextFull_scheduled h) m hm
    split_ifs at hfit with haware
    · exact hfit
    · have hlength := not_lt.1 fun hlonger => hchecked ⟨haware, hlonger⟩
      simp only
      omega
  | some config =>
    simp only [hconfig] at h hchecked
    have hfit := canFitTokens_iff.1 (tryScheduleContextChunked_scheduled h) m hm
    simp only
    split_ifs with hlast
    · have hdraft : req'.numDraftTokens = 0 := Nat.eq_zero_of_not_pos fun hpos => hchecked ⟨hlast, hpos⟩
      omega
    · omega

/-- A visit that schedules a request without a check that covers it: those before it used more than was committed for
them, or its context was checked with fewer tokens than it uses. -/
def Unchecked (s : KVCacheV2Scheduler κ) (st st' : LoopState κ) (req : LlmRequest) : Prop :=
  st.budget.numTokens < s.usedTokens st ∨ ∃ req', st'.scheduledCtx = st.scheduledCtx ++ [req'] ∧ s.UncheckedContext req req'

/-- Along phase 2, whatever is scheduled unchecked still fits with all that is scheduled before it. -/
def UncheckedFit (s : KVCacheV2Scheduler κ) (m : ℕ) : LoopState κ → List LlmRequest → Prop
  | _, [] => True
  | st, req :: rest => ∀ st', s.visitPendingCtx st req = .ok (.next st') →
      (s.Unchecked st st' req → s.usedTokens st' ≤ m) ∧ UncheckedFit s m st' rest

@[simp] theorem usedTokens_append_encoder (st : LoopState κ) (req : LlmRequest) (budget : BudgetTracker) :
    s.usedTokens { st with scheduledEncoder := st.scheduledEncoder ++ [req], budget := budget } =
      s.usedTokens st + req.encoderOutputLen := by
  simp [usedTokens, tokensOf]
  omega

theorem usedTokens_append_ctx (h : st'.scheduledCtx = st.scheduledCtx ++ [req'])
    (hencoder : st'.scheduledEncoder = st.scheduledEncoder) (hgen : st'.scheduledGen = st.scheduledGen) :
    s.usedTokens st' = s.usedTokens st + s.contextTokens req' := by
  simp [usedTokens, tokensOf, h, hencoder, hgen]
  omega

structure Grows (s : KVCacheV2Scheduler κ) (st st' : LoopState κ) (req : LlmRequest) : Prop where
  limit : st'.budget.maxNumTokens = st.budget.maxNumTokens
  le : s.usedTokens st ≤ s.usedTokens st'
  checked : ¬s.Unchecked st st' req → ∀ m ∈ st.budget.maxNumTokens, s.usedTokens st ≤ m → s.usedTokens st' ≤ m

theorem Grows.of_added (hlimit : st'.budget.maxNumTokens = st.budget.maxNumTokens)
    (hused : s.usedTokens st' = s.usedTokens st + n)
    (hfit : ¬s.Unchecked st st' req → st.budget.canFitTokens n) : Grows s st st' req where
  limit := hlimit
  le := by omega
  checked hchecked m hm _ := by
    have hle : s.usedTokens st ≤ st.budget.numTokens := not_lt.1 fun hlt => hchecked (.inl hlt)
    have hfit' := canFitTokens_iff.1 (hfit hchecked) m hm
    omega

inductive VisitSpec (s : KVCacheV2Scheduler κ) (st : LoopState κ) (req : LlmRequest) : ContextVisit κ → Prop where
  | stop (kv : κ) : VisitSpec s st req (.stop { st with kv := kv })
  | pass (kv : κ) : VisitSpec s st req (.next { st with kv := kv })
  | encoder (pages : ℕ) (hfit : st.budget.canFitTokens req.encoderOutputLen) :
      VisitSpec s st req (.next { st with
        scheduledEncoder := st.scheduledEncoder ++ [req]
        budget := st.budget.commit req req.encoderOutputLen pages })
  | context (req' : LlmRequest) (tokens pages : ℕ) (chunking : Bool) (kv : κ)
      (hschedule : s.tryScheduleContext st.budget st.kv req = .ok (.scheduled req' tokens chunking, kv)) :
      VisitSpec s st req (.next { st with
        kv := kv
        hasChunking := st.hasChunking || chunking
        scheduledCtx := st.scheduledCtx ++ [req']
        budget := st.budget.commit req tokens pages })

theorem visitPendingCtx_spec {visit : ContextVisit κ} (h : s.visitPendingCtx st req = .ok visit) : VisitSpec s st req visit := by
  unfold visitPendingCtx at h
  split_ifs at h with hfull hencoder
  · cases h
    exact .stop st.kv
  · split at h
    · cases h
      exact .pass st.kv
    rename_i pages _
    split at h
    · cases h
    · cases h
      exact .stop st.kv
    · rename_i tokens hschedule
      cases h
      unfold tryScheduleEncoder at hschedule
      simp only at hschedule
      split_ifs at hschedule with hcross hfit hlong
      · cases hschedule
      · cases hschedule
        exact .encoder pages (by simpa using hfit)
  · split at h
    · cases h
      exact .pass st.kv
    rename_i pages _
    split at h
    · cases h
    · cases h
      exact .stop _
    · cases h
      exact .pass _
    · rename_i req' tokens chunking kv hschedule
      cases h
      exact .context req' tokens pages chunking kv hschedule

theorem visitPendingCtx_grows (h : s.visitPendingCtx st req = .ok (.next st')) : Grows s st st' req := by
  cases visitPendingCtx_spec h with
  | pass kv => exact ⟨rfl, le_rfl, fun _ _ _ hle => hle⟩
  | encoder pages hfit =>
    exact .of_added (commit_maxNumTokens _ _) (usedTokens_append_encoder _ _ _) fun _ => hfit
  | context req' tokens pages chunking kv hschedule =>
    refine .of_added (commit_maxNumTokens _ _) (usedTokens_append_ctx rfl rfl rfl) fun hchecked => ?_
    exact canFitTokens_of_checked hschedule fun hunchecked => hchecked (.inr ⟨req', rfl, hunchecked⟩)

theorem visitPendingCtx_stop (h : s.visitPendingCtx st req = .ok (.stop st')) : s.usedTokens st' = s.usedTokens st := by
  cases visitPendingCtx_spec h with
  | stop kv => rfl

theorem contextPhase_le (h : s.contextPhase st reqs = .ok st') : s.usedTokens st ≤ s.usedTokens st' := by
  induction reqs generalizing st with
  | nil =>
    cases h
    exact le_rfl
  | cons req rest ih =>
    rw [contextPhase] at h
    split at h
    · cases h
    · rename_i hvisit
      cases h
      exact (visitPendingCtx_stop hvisit).ge
    · rename_i hvisit
      exact (visitPendingCtx_grows hvisit).le.trans (ih h)

/-- Phase 2 ends within the limit exactly when what it schedules unchecked fits. -/
theorem contextPhase_within_iff (hlimit : st.budget.maxNumTokens = some m) (hused : s.usedTokens st ≤ m)
    (h : s.contextPhase st reqs = .ok st') : s.usedTokens st' ≤ m ↔ s.UncheckedFit m st reqs := by
  induction reqs generalizing st with
  | nil =>
    cases h
    exact iff_of_true hused trivial
  | cons req rest ih =>
    rw [contextPhase] at h
    split at h
    · cases h
    · rename_i st₁ hvisit
      cases h
      refine iff_of_true ((visitPendingCtx_stop hvisit).trans_le hused) fun st₂ hnext => ?_
      rw [hvisit] at hnext
      cases hnext
    · rename_i st₁ hvisit
      have hgrows := visitPendingCtx_grows hvisit
      have hrest := fun hused₁ => ih (hgrows.limit.trans hlimit) hused₁ h
      constructor
      · intro hwithin st₂ hnext
        rw [hvisit] at hnext
        cases hnext
        have hused₁ : s.usedTokens st₁ ≤ m := (contextPhase_le h).trans hwithin
        exact ⟨fun _ => hused₁, (hrest hused₁).1 hwithin⟩
      · intro hfit
        obtain ⟨hunchecked, hfitRest⟩ := hfit st₁ hvisit
        have hused₁ : s.usedTokens st₁ ≤ m := by
          by_cases hcase : s.Unchecked st st₁ req
          · exact hunchecked hcase
          · exact hgrows.checked hcase m hlimit hused
        exact (hrest hused₁).2 hfitRest

end KVCacheV2Scheduler

end TrtLlm.Scheduler
