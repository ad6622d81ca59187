import TrtLlm.Scheduler.V2.Budget

/-!
# When the V2 scheduler reports a deadlock

The loop stops at the first generation request it can neither allocate nor make room for. Requests in front of it are
never victims, so a request about to complete or in flight that stands there keeps its pages, and the scheduler reports
a deadlock that is none.
-/

namespace TrtLlm.Scheduler.KVCacheV2Scheduler

open List

variable {κ : Type} {s : KVCacheV2Scheduler κ} {st st' : LoopState κ} {req : LlmRequest} {inflight : List ℕ}

/-- The request has its cache on the GPU and will give it back without being scheduled again. -/
def GivesPagesBack (s : KVCacheV2Scheduler κ) (kv : κ) (inflightRequestIds : List ℕ) (req : LlmRequest) : Prop :=
  s.kvCacheManager.isRequestActive kv req.requestId ∧ (req.isGenerationToCompleteState ∨ req.requestId ∈ inflightRequestIds)

/-- The first generation request that phase 1 tries to allocate, the requests behind it and the state of the KV cache
then. -/
structure Attempt (κ : Type) where
  req : LlmRequest
  behind : List LlmRequest
  kv : κ

def firstAttempt (s : KVCacheV2Scheduler κ) (inflightRequestIds : List ℕ) (st : LoopState κ) :
    List LlmRequest → Option (Attempt κ)
  | [] => none
  | req :: rest =>
    match s.gate inflightRequestIds st req with
    | .stop => none
    | .pass st => firstAttempt s inflightRequestIds st rest
    | .generation _ => if st.budget.canFitTokens (generationTokens req) then some ⟨req, rest, st.kv⟩ else none

/-- The allocation fails, nothing behind the request can be evicted, and the request itself holds no pages. -/
structure Attempt.Fails (s : KVCacheV2Scheduler κ) (attempt : Attempt κ) : Prop where
  allocation : (s.kvCacheManager.tryAllocateGeneration attempt.kv attempt.req).1 = false
  noVictim : ∀ req ∈ attempt.behind, ¬s.isEvictable (s.kvCacheManager.tryAllocateGeneration attempt.kv attempt.req).2 req
  suspended : ¬s.kvCacheManager.isRequestActive (s.kvCacheManager.tryAllocateGeneration attempt.kv attempt.req).2
    attempt.req.requestId

variable {kv : κ} {e : V2Error} {candidates reqs : List LlmRequest} {pages : ℕ} {budget : BudgetTracker}

theorem tryEvictForGen_of_noVictim {evicted : List LlmRequest} {behind : ℕ}
    (h : ∀ req ∈ candidates, ¬s.isEvictable kv req) :
    s.tryEvictForGen req kv evicted behind candidates = ⟨behind, false, evicted, kv⟩ := by
  induction candidates with
  | nil => rfl
  | cons candidate rest ih =>
    rw [tryEvictForGen, if_neg (h candidate (.head _))]
    exact ih (forall_mem_cons.1 h).2

theorem tryEvictForGen_evicted_ne_nil (req : LlmRequest) (evicted : List LlmRequest) (behind : ℕ)
    (h : evicted ≠ [] ∨ ∃ victim ∈ candidates, s.isEvictable kv victim) :
    (s.tryEvictForGen req kv evicted behind candidates).evicted ≠ [] := by
  induction candidates generalizing kv evicted behind with
  | nil => exact h.resolve_right (by simp)
  | cons candidate rest ih =>
    have hmore : evicted ++ [candidate] ≠ [] := append_ne_nil_of_right_ne_nil _ (cons_ne_nil _ _)
    rw [tryEvictForGen]
    split_ifs with hevictable
    · split
      · exact hmore
      · exact ih _ _ (.inl hmore)
    · rcases h with h | ⟨victim, hmem, hvictim⟩
      · exact ih _ _ (.inl h)
      · rcases mem_cons.1 hmem with rfl | hrest
        · exact absurd hvictim hevictable
        · exact ih _ _ (.inr ⟨victim, hrest, hvictim⟩)

/-- The first attempt leaves no trace exactly when it fails: otherwise a request is allocated or evicted. -/
theorem allocateGeneration_fails_iff (st : LoopState κ) (req : LlmRequest) (behind : List LlmRequest)
    (hevicted : st.evicted = []) :
    ((s.allocateGeneration st req behind).1 = false ∧ (s.allocateGeneration st req behind).2.2.evicted = []) ↔
      Attempt.Fails s ⟨req, behind, st.kv⟩ := by
  unfold allocateGeneration
  cases halloc : s.kvCacheManager.tryAllocateGeneration st.kv req with
  | mk success kv =>
    cases success with
    | true =>
      refine iff_of_false (by simp) fun hfails => ?_
      simpa [halloc] using hfails.allocation
    | false =>
      simp only
      by_cases hvictim : ∃ victim ∈ behind.reverse, s.isEvictable kv victim
      · have hne := tryEvictForGen_evicted_ne_nil req st.evicted behind.length (.inr hvictim)
        obtain ⟨victim, hmem, hevictable⟩ := hvictim
        refine iff_of_false ?_ fun hfails => ?_
        · split_ifs
          · simp
          · simp
          · simp [hne]
        · refine hfails.noVictim victim (mem_reverse.1 hmem) ?_
          simpa [halloc] using hevictable
      · have hnone : ∀ victim ∈ behind.reverse, ¬s.isEvictable kv victim :=
          fun victim hmem hevictable => hvictim ⟨victim, hmem, hevictable⟩
        rw [tryEvictForGen_of_noVictim hnone]
        by_cases hactive : s.kvCacheManager.isRequestActive kv req.requestId
        · refine iff_of_false (by simp [hactive]) fun hfails => hfails.suspended ?_
          simpa [halloc] using hactive
        refine iff_of_true (by simp [hactive, hevicted]) ⟨?_, ?_, ?_⟩
        · simp [halloc]
        · intro victim hmem
          simpa [halloc] using hnone victim (mem_reverse.2 hmem)
        · simpa [halloc] using hactive

structure Fresh (st : LoopState κ) : Prop where
  scheduledGen : st.scheduledGen = []
  evicted : st.evicted = []
  scheduledBeamWidth : st.scheduledBeamWidth = 0

theorem Fresh.gate (h : Fresh st) (hgate : s.gate inflight st req = .pass st') : Fresh st' := by
  have hpass := gate_pass hgate
  exact ⟨hpass.gen.trans h.scheduledGen, hpass.evicted.trans h.evicted, hpass.beamWidth.trans h.scheduledBeamWidth⟩

theorem generationPhase_keeps (h : st.scheduledGen ≠ []) (window : ℕ) (reqs : List LlmRequest) :
    (s.generationPhase inflight st window reqs).scheduledGen ≠ [] := by
  apply generationPhase_induct (I := fun st => st.scheduledGen ≠ []) _ _ _ h
  · exact fun _ _ _ h hgate => (gate_pass hgate).gen ▸ h
  · exact fun _ _ h hbatch => hbatch.gen ▸ h
  · exact fun _ _ _ _ _ => append_ne_nil_of_right_ne_nil _ (cons_ne_nil _ _)

theorem generationPhase_idle_iff (inflight : List ℕ) (h : Fresh st) (reqs : List LlmRequest) :
    ((s.generationPhase inflight st reqs.length reqs).scheduledGen = [] ∧
        (s.generationPhase inflight st reqs.length reqs).evicted = []) ↔
      ∀ attempt ∈ s.firstAttempt inflight st reqs, attempt.Fails s := by
  induction reqs generalizing st with
  | nil => exact iff_of_true ⟨h.scheduledGen, h.evicted⟩ (by simp [firstAttempt])
  | cons req rest ih =>
    rw [length_cons, generationPhase, firstAttempt]
    cases hgate : s.gate inflight st req with
    | stop => exact iff_of_true ⟨h.scheduledGen, h.evicted⟩ (by simp)
    | pass st₁ => exact ih (h.gate hgate)
    | generation pages =>
      simp only [take_length]
      by_cases hfit : st.budget.canFitTokens (generationTokens req)
      swap
      · rw [if_neg hfit]
        unfold generationTokens at hfit
        simp only [visitGeneration, hfit]
        exact iff_of_true ⟨h.scheduledGen, h.evicted⟩ (by simp)
      rw [if_pos hfit]
      unfold generationTokens at hfit
      simp only [visitGeneration, hfit, h.scheduledBeamWidth]
      have hiff := allocateGeneration_fails_iff (s := s) { st with scheduledBeamWidth := req.beamWidth } req rest h.evicted
      have hgen := (allocateGeneration_sameBatch (s := s) { st with scheduledBeamWidth := req.beamWidth } req rest).gen
      simp only [Option.mem_some_iff, forall_eq']
      rw [← hiff]
      generalize s.allocateGeneration { st with scheduledBeamWidth := req.beamWidth } req rest = result at *
      obtain ⟨success, n, st₁⟩ := result
      cases success with
      | false => simpa using fun _ => hgen.trans h.scheduledGen
      | true =>
        refine iff_of_false (fun hidle => ?_) (by simp)
        exact generationPhase_keeps (by simp) _ _ hidle.1

theorem contextPhase_frame (h : s.contextPhase st reqs = .ok st') :
    st'.scheduledGen = st.scheduledGen ∧ st'.evicted = st.evicted := by
  induction reqs generalizing st with
  | nil =>
    cases h
    exact ⟨rfl, rfl⟩
  | cons req rest ih =>
    rw [contextPhase] at h
    split at h
    · cases h
    · rename_i st₁ hvisit
      cases h
      cases visitPendingCtx_spec hvisit with
      | stop kv => exact ⟨rfl, rfl⟩
    · rename_i st₁ hvisit
      have hrest := ih h
      cases visitPendingCtx_spec hvisit with
      | pass kv => exact hrest
      | encoder pages hfit => exact hrest
      | context req' tokens pages chunking kv hschedule => exact hrest

theorem checkContextTokens_error {contextTokens draftLen : ℕ}
    (h : s.checkContextTokens budget contextTokens draftLen = .error e) (n : ℕ) : e ≠ .deadlock n := by
  unfold checkContextTokens at h
  split_ifs at h
  cases h
  simp

theorem tryScheduleContext_error (h : s.tryScheduleContext budget kv req = .error e) (n : ℕ) : e ≠ .deadlock n := by
  unfold tryScheduleContext at h
  split at h
  · unfold tryScheduleContextFull at h
    simp only at h
    split at h
    · rename_i e' herror
      cases h
      split_ifs at herror
      exact checkContextTokens_error herror n
    · cases h
    · split_ifs at h
      · split at h
        · rename_i e' herror
          cases h
          exact checkContextTokens_error herror n
        · cases h
        · split at h <;> cases h
      · split at h
        · rename_i herror
          cases herror
        · cases h
        · split at h <;> cases h
  · unfold tryScheduleContextChunked at h
    simp only at h
    split_ifs at h
    split at h
    · rename_i e' herror
      cases h
      unfold alignChunkToMmBlock at herror
      split at herror
      · cases herror
      simp only at herror
      split_ifs at herror
      cases herror
      simp
    · cases h
    · cases h

theorem visitPendingCtx_error (h : s.visitPendingCtx st req = .error e) (n : ℕ) : e ≠ .deadlock n := by
  unfold visitPendingCtx at h
  split_ifs at h
  · split at h
    · cases h
    split at h
    · rename_i e' herror
      cases h
      unfold tryScheduleEncoder at herror
      simp only at herror
      split_ifs at herror <;> cases herror <;> simp
    · cases h
    · cases h
  · split at h
    · cases h
    split at h
    · rename_i e' herror
      cases h
      exact tryScheduleContext_error herror n
    all_goals cases h

theorem contextPhase_error (h : s.contextPhase st reqs = .error e) (n : ℕ) : e ≠ .deadlock n := by
  induction reqs generalizing st with
  | nil => cases h
  | cons req rest ih =>
    rw [contextPhase] at h
    split at h
    · rename_i e' herror
      cases h
      exact visitPendingCtx_error herror n
    · cases h
    · exact ih h

theorem Fresh.initialState (kv : κ) (reqs : List LlmRequest) : Fresh (s.initialState kv reqs) := ⟨rfl, rfl, rfl⟩

def firstAttemptOf (s : KVCacheV2Scheduler κ) (kv : κ) (inflightRequestIds : List ℕ)
    (activeRequests : List LlmRequest) : Option (Attempt κ) :=
  s.firstAttempt inflightRequestIds (s.initialState kv (s.requestsList activeRequests)) (s.requestsList activeRequests)

theorem scheduleLoop_deadlock_iff {active : List LlmRequest} {n : ℕ} :
    s.scheduleLoop kv inflight active = .error (.deadlock n) ↔
      n = (genCandidates inflight active).length ∧ 0 < n ∧
        (∀ attempt ∈ s.firstAttemptOf kv inflight active, attempt.Fails s) ∧
        ∃ st', s.contextPhase (s.afterGeneration kv inflight active)
          (s.afterGeneration kv inflight active).pendingCtx = .ok st' ∧ st'.scheduledCtx = [] := by
  have hidle := generationPhase_idle_iff (s := s) inflight
    (.initialState (s := s) kv (s.requestsList active)) (s.requestsList active)
  unfold scheduleLoop
  simp only
  cases hphase : s.contextPhase (s.afterGeneration kv inflight active)
      (s.afterGeneration kv inflight active).pendingCtx with
  | error e =>
    refine iff_of_false (fun h => ?_) (by simp)
    cases h
    exact contextPhase_error hphase n rfl
  | ok st' =>
    obtain ⟨hgen, hevicted⟩ := contextPhase_frame hphase
    have hidle' : (st'.scheduledGen = [] ∧ st'.evicted = []) ↔
        ∀ attempt ∈ s.firstAttemptOf kv inflight active, attempt.Fails s := by
      rw [hgen, hevicted]
      exact hidle
    simp only [← hidle', Except.ok.injEq, exists_eq_left']
    split_ifs with hdeadlock
    · simp only [Bool.and_eq_true, List.isEmpty_iff, decide_eq_true_eq] at hdeadlock
      obtain ⟨⟨⟨hgenNil, hctxNil⟩, hpos⟩, hevictedNil⟩ := hdeadlock
      simp only [Except.error.injEq, V2Error.deadlock.injEq]
      exact ⟨fun h => ⟨h.symm, h ▸ hpos, ⟨hgenNil, hevictedNil⟩, hctxNil⟩, fun h => h.1.symm⟩
    · refine iff_of_false (by simp) ?_
      rintro ⟨rfl, hpos, ⟨hgenNil, hevictedNil⟩, hctxNil⟩
      exact hdeadlock (by simp [hgenNil, hctxNil, hevictedNil, hpos])

/-- A call that reports a deadlock has no request that will give its pages back exactly when there is no such request to
begin with, or no generation request waits, or the first one tried does not fail (it is allocated, or a started request
with an active cache is behind it, or it holds pages itself), or phase 2 schedules a context request or raises another
error. -/
theorem scheduleRequest_deadlock_right_iff (s : KVCacheV2Scheduler κ) (kv : κ) (inflightRequestIds : List ℕ)
    (activeRequests : List LlmRequest) : let ready := dropWaitingForEncoderOutput activeRequests
    let st := s.afterGeneration kv inflightRequestIds ready
    ((∃ n, s.scheduleRequest kv inflightRequestIds activeRequests = .error (.deadlock n)) →
        ∀ req ∈ activeRequests, ¬s.GivesPagesBack kv inflightRequestIds req) ↔
      (∀ req ∈ activeRequests, ¬s.GivesPagesBack kv inflightRequestIds req) ∨
      genCandidates inflightRequestIds ready = [] ∨
      (∃ attempt ∈ s.firstAttemptOf kv inflightRequestIds ready, ¬attempt.Fails s) ∨
      (∀ st', s.contextPhase st st.pendingCtx = .ok st' → st'.scheduledCtx ≠ []) := by
  intro ready st
  have hraises : (∃ n, s.scheduleRequest kv inflightRequestIds activeRequests = .error (.deadlock n)) ↔
      genCandidates inflightRequestIds ready ≠ [] ∧
        (∀ attempt ∈ s.firstAttemptOf kv inflightRequestIds ready, attempt.Fails s) ∧
        ∃ st', s.contextPhase st st.pendingCtx = .ok st' ∧ st'.scheduledCtx = [] := by
    have hloop : ∀ n, s.scheduleRequest kv inflightRequestIds activeRequests = .error (.deadlock n) ↔
        s.scheduleLoop kv inflightRequestIds ready = .error (.deadlock n) := by
      unfold scheduleRequest
      split
      · rename_i e hrun
        simp [ready, hrun]
      · rename_i st' hrun
        simp [ready, hrun]
    simp only [hloop, scheduleLoop_deadlock_iff, exists_eq_left, length_pos_iff, st]
  rw [hraises]
  constructor
  · intro h
    by_contra hnone
    simp only [not_or, not_forall, not_exists, not_and, not_not] at hnone
    obtain ⟨hgives, hcandidates, hattempt, st', hphase, hctx⟩ := hnone
    obtain ⟨req, hreq, hgives⟩ := hgives
    exact h ⟨hcandidates, hattempt, st', hphase, hctx⟩ req hreq hgives
  · rintro (hgives | hcandidates | ⟨attempt, hmem, hsucceeds⟩ | hctx) ⟨hsome, hattempt, st', hphase, hnil⟩
    · exact hgives
    · exact absurd hcandidates hsome
    · exact absurd (hattempt attempt hmem) hsucceeds
    · exact absurd hnil (hctx st' hphase)

/-- A request about to complete, with its cache on the GPU, in front of a suspended generation request that cannot be
resumed until it is gone: the scheduler reports a deadlock. The same with a request in flight. -/
theorem scheduleRequest_false_deadlock :
    let completing := { LlmRequest.arrived 1 8 with state := .generationToComplete }
    let running := { LlmRequest.arrived 1 8 with state := .generationInProgress }
    let suspended := { LlmRequest.arrived 2 8 with state := .generationInProgress }
    ((small 10).scheduleRequest [1] [] [completing, suspended] = .error (.deadlock 1) ∧
      (small 10).GivesPagesBack [1] [] completing) ∧
    ((small 10).scheduleRequest [1] [1] [running, suspended] = .error (.deadlock 1) ∧
      (small 10).GivesPagesBack [1] [1] running) := by
  refine ⟨⟨by decide +kernel, by decide, .inl (by decide)⟩, ⟨by decide +kernel, by decide, .inr (by decide)⟩⟩

end TrtLlm.Scheduler.KVCacheV2Scheduler
