import TrtLlm.Scheduler.MicroBatch

/-!
# The micro-batch scheduler keeps its budgets

The main loop keeps an account of what it has taken; what it leaves of the token budget is the capacity the
chunking policies work with. Together they give the bounds on the returned batch.
-/

namespace TrtLlm.Scheduler

open List LlmRequest MicroBatch Option PyMicroBatchScheduler

def ScheduleError.IsLimitError : ScheduleError → Prop
  | .encoderTokensExceedLimit .. => True
  | .contextTokensExceedLimit .. => True
  | .forcedChunkExceedsMaxContextLength .. => True
  | _ => False

theorem charge_cases {limit tokens : Option ℤ} {n total : ℤ} {error : ℤ → ℤ → ScheduleError} {next : MicroBatch}
    {r : Except ScheduleError Visit} (h : (match checkLimit limit n error with
      | .error e => .error e
      | .ok () => if exceeds tokens total then .ok .stop else .ok (.take next)) = r) :
    (∃ m, r = .error (error n m)) ∨ r = .ok .stop ∨ exceeds tokens total = false ∧ r = .ok (.take next) := by
  subst h
  unfold checkLimit
  cases limit with
  | none => cases exceeds tokens total <;> simp
  | some m =>
    by_cases hlimit : m < n
    · exact .inl ⟨m, by simp [hlimit]⟩
    · cases exceeds tokens total <;> simp [hlimit]

namespace MicroBatch

def taken (batch : MicroBatch) : List LlmRequest :=
  batch.encoderRequests ++ (batch.contextRequests ++ (batch.generationRequests ++ batch.contextsToBeChunked))

end MicroBatch

def generationTokens (req : LlmRequest) : ℤ := req.beamWidth + req.numDraftTokens

def chunkTokens (req : LlmRequest) : ℤ := req.chunkCompute + req.draftCompute

variable {batch : MicroBatch} {req : LlmRequest} {inflight : List ℕ} {visited : List LlmRequest}

namespace PyMicroBatchScheduler

variable {s : PyMicroBatchScheduler}

/-- Where the taken requests come from: `visited` are the requests of the active list as they were met. -/
structure Ledger (inflightRequestIds : List ℕ) (visited : List LlmRequest) (batch : MicroBatch) : Prop where
  ids : (batch.taken.map requestId).Perm (visited.map requestId)
  same : ∀ req ∈ batch.taken, ∃ req₀ ∈ visited, req₀.SameRequest req
  notInflight : ∀ req ∈ visited, req.requestId ∉ inflightRequestIds
  size : batch.scheduledReqSize = batch.taken.length

structure Tally (s : PyMicroBatchScheduler) (batch : MicroBatch) : Prop where
  beam : ∀ req ∈ batch.generationRequests, req.beamWidth = batch.scheduledBeamWidth
  tokens : batch.batchNumTokens = (batch.encoderRequests.map fun r => (r.encoderOutputLen : ℤ)).sum +
    (batch.contextRequests.map fullContextCompute).sum + (batch.generationRequests.map generationTokens).sum
  limit : ∀ m ∈ s.tokenLimit, batch.batchNumTokens ≤ m
  noChunks : s.ctxChunkConfig = none → batch.contextsToBeChunked = []
  onlyChunks : s.ctxChunkConfig ≠ none → batch.contextRequests = []
  full : ∀ req ∈ batch.contextsToBeChunked, req.contextChunkSize = req.contextRemainingLength
  fit : batch.allContextRequestsFit → batch.numChunkedComputeTokens = (batch.contextsToBeChunked.map chunkTokens).sum

structure Adds (s : PyMicroBatchScheduler) (req : LlmRequest) (batch batch' : MicroBatch) : Prop where
  tally : Tally s batch'
  taken : ∃ req', req.SameRequest req' ∧ batch'.taken.Perm (batch.taken ++ [req'])
  size_eq : batch'.scheduledReqSize = batch.scheduledReqSize

variable {batch' : MicroBatch}

theorem perm_append_last (xs ys : List LlmRequest) (req : LlmRequest) : (xs ++ [req] ++ ys).Perm (xs ++ ys ++ [req]) := by
  rw [append_assoc, append_assoc]
  exact perm_append_comm.append_left xs

variable (htally : Tally s batch)

include htally

theorem visitEncoder_take (h : s.visitEncoder batch req = .ok (.take batch')) : Adds s req batch batch' := by
  rcases charge_cases h with ⟨m, hr⟩ | hr | ⟨hover, hr⟩ <;> cases hr
  refine ⟨{ htally with tokens := ?_, limit := exceeds_eq_false.1 hover }, ⟨req, .refl req, perm_append_last ..⟩, rfl⟩
  simp only [map_append, sum_append, map_cons, sum_cons, map_nil, sum_nil, htally.tokens]
  omega

theorem visitFullContext_take (hconfig : s.ctxChunkConfig = none)
    (h : s.visitFullContext batch req = .ok (.take batch')) : Adds s req batch batch' := by
  rcases charge_cases h with ⟨m, hr⟩ | hr | ⟨hover, hr⟩ <;> cases hr
  refine ⟨{ htally with tokens := ?_, limit := ?_, onlyChunks := fun hne => absurd hconfig hne }, ⟨req, .refl req, ?_⟩, rfl⟩
  · simp only [map_append, sum_append, map_cons, sum_cons, map_nil, sum_nil, htally.tokens]
    omega
  · exact exceeds_eq_false.1 hover
  · rw [taken, taken, append_assoc batch.encoderRequests]
    exact (perm_append_last ..).append_left _

theorem visitGeneration_take (h : s.visitGeneration batch req = .take batch') : Adds s req batch batch' := by
  unfold visitGeneration at h
  by_cases hover : exceeds s.tokenLimit (batch.batchNumTokens + (req.beamWidth + req.numDraftTokens))
  · simp [hover] at h
  by_cases hwidth : (if batch.scheduledBeamWidth = 0 then req.beamWidth else batch.scheduledBeamWidth) = req.beamWidth
  swap
  · simp [hover, hwidth] at h
  simp only [if_neg hover, ne_eq, hwidth, not_true_eq_false, if_false, Visit.take.injEq] at h
  subst h
  refine ⟨{ htally with beam := ?_, tokens := ?_, limit := ?_ }, ⟨req, .refl req, ?_⟩, rfl⟩
  · -- a width of zero means that no generation request was taken yet
    intro r hr
    rcases mem_append.1 hr with hold | hnew
    · have hbeam := htally.beam r hold
      have hpos := r.beamWidth_pos
      rw [if_neg (by omega)] at hwidth
      exact hbeam.trans hwidth
    · rw [mem_singleton.1 hnew]
  · simp only [map_append, sum_append, map_cons, sum_cons, map_nil, sum_nil, htally.tokens, generationTokens]
    omega
  · exact exceeds_eq_false.1 (by simpa using hover)
  · simp only [taken, append_assoc]
    exact .append_left _ (.append_left _ (.append_left _ perm_append_comm))

theorem visitChunkedContext_take (hconfig : s.ctxChunkConfig ≠ none)
    (h : s.visitChunkedContext batch req = .take batch') : Adds s req batch batch' := by
  unfold visitChunkedContext at h
  extract_lets req' draftTokens contextCompute computeTokens at h
  simp only [Visit.take.injEq] at h
  have hfull : req'.contextChunkSize = req'.contextRemainingLength := by simp [req']
  have hcost : computeTokens = chunkTokens req' := by
    have hcompute : contextCompute = req'.chunkCompute := by
      rw [chunkCompute, computeOf_eq_min (by exact_mod_cast hfull.le)]
      simp only [contextCompute, reuseAdjustedCompute]
      split_ifs <;> omega
    have hdraft : draftTokens = req'.draftCompute := by
      simp only [draftTokens, draftCompute, hasDraftTokens]
      by_cases hlast : req'.isLastContextChunk <;> by_cases hnone : req'.numDraftTokens = 0 <;> simp [hnone]
    simp only [computeTokens, chunkTokens, hcompute, hdraft]
  subst h
  refine ⟨{ htally with noChunks := fun hnone => absurd hnone hconfig, full := ?_, fit := ?_ },
    ⟨req', sameRequest_withContextChunkSize req _, ?_⟩, rfl⟩
  · exact forall_mem_append.2 ⟨htally.full, forall_mem_singleton.2 hfull⟩
  · intro hfits
    simp only [Bool.and_eq_true, Bool.not_eq_true', exceeds_eq_false] at hfits
    simp only [map_append, map_cons, ← hcost, htally.fit hfits.1]
    cases hm : s.maxContextLength with
    | none => simp
    | some m => simp [min_eq_right (hfits.2 m hm)]
  · simp only [taken, append_assoc]
    exact .refl _

theorem visit_take (h : s.visit batch req = .ok (.take batch')) : Adds s req batch batch' := by
  unfold visit at h
  split_ifs at h
  · exact visitEncoder_take htally h
  · cases hconfig : s.ctxChunkConfig with
    | none => exact visitFullContext_take htally hconfig (by simpa [hconfig] using h)
    | some config => exact visitChunkedContext_take htally (by simp [hconfig]) (by simpa [hconfig] using h)
  · exact visitGeneration_take htally (Except.ok.inj h)

omit htally

theorem visit_error {e : ScheduleError} (h : s.visit batch req = .error e) : e.IsLimitError := by
  unfold visit at h
  split_ifs at h
  · rcases charge_cases h with ⟨m, hr⟩ | hr | ⟨-, hr⟩ <;> cases hr
    trivial
  cases hconfig : s.ctxChunkConfig with
  | some config => simp [hconfig] at h
  | none =>
    rw [hconfig] at h
    rcases charge_cases h with ⟨m, hr⟩ | hr | ⟨-, hr⟩ <;> cases hr
    trivial

theorem Ledger.take (h : Ledger inflight visited batch) (hadds : Adds s req batch batch')
    (hfree : req.requestId ∉ inflight) :
    Ledger inflight (visited ++ [req]) { batch' with scheduledReqSize := batch'.scheduledReqSize + 1 } := by
  obtain ⟨req', hsame, hperm⟩ := hadds.taken
  refine ⟨?_, ?_, ?_, ?_⟩
  · refine (hperm.map requestId).trans ?_
    simp only [map_append, map_cons, hsame.requestId_eq]
    exact h.ids.append_right _
  · intro r hr
    rcases mem_append.1 (hperm.mem_iff.1 hr) with hold | hnew
    · obtain ⟨r₀, hr₀, hsame₀⟩ := h.same r hold
      exact ⟨r₀, mem_append_left _ hr₀, hsame₀⟩
    · rw [mem_singleton.1 hnew]
      exact ⟨req, by simp, hsame⟩
  · exact forall_mem_append.2 ⟨h.notInflight, forall_mem_singleton.2 hfree⟩
  · have hlength := hperm.length_eq
    rw [length_append, length_singleton] at hlength
    show batch'.scheduledReqSize + 1 = batch'.taken.length
    rw [hlength, hadds.size_eq, h.size]

/-- The main loop, from any batch that has room: the requests it takes form a sublist of the rest of the list. -/
theorem scan_spec {rest : List LlmRequest} (h : Ledger inflight visited batch)
    (htally : Tally s batch) (hroom : batch.scheduledReqSize < s.maxBatchSize) :
    (∃ batch', s.scan inflight batch rest = .ok batch' ∧ ∃ more, more.Sublist rest ∧
      Ledger inflight (visited ++ more) batch' ∧ Tally s batch' ∧
      batch'.scheduledReqSize ≤ s.maxBatchSize) ∨
    ∃ e, s.scan inflight batch rest = .error e ∧ e.IsLimitError := by
  induction rest generalizing visited batch with
  | nil => exact .inl ⟨batch, rfl, [], .slnil, by simpa using h, htally, hroom.le⟩
  | cons req rest ih =>
    have hskip := ih h htally hroom
    rw [scan]
    by_cases hpass : s.isPassedOver inflight req
    · rw [if_pos hpass]
      exact hskip.imp_left fun ⟨batch', hscan, more, hsub, hend⟩ => ⟨batch', hscan, more, hsub.cons req, hend⟩
    rw [if_neg hpass]
    cases hvisit : s.visit batch req with
    | error e => exact .inr ⟨e, rfl, visit_error hvisit⟩
    | ok visit =>
      cases visit with
      | skip =>
        exact hskip.imp_left fun ⟨batch', hscan, more, hsub, hend⟩ =>
          ⟨batch', hscan, more, hsub.cons req, hend⟩
      | stop => exact .inl ⟨batch, rfl, [], nil_sublist _, by simpa using h, htally, hroom.le⟩
      | take next =>
        have hadds := visit_take htally hvisit
        have hfree : req.requestId ∉ inflight := by
          simp only [isPassedOver, Bool.or_eq_true, contains_iff_mem] at hpass
          tauto
        have hledger' := h.take hadds hfree
        have htally' : Tally s { next with scheduledReqSize := next.scheduledReqSize + 1 } := { hadds.tally with }
        have hsize := hadds.size_eq
        dsimp only
        by_cases hlast : s.maxBatchSize ≤ next.scheduledReqSize + 1
        · rw [if_pos hlast]
          refine .inl ⟨_, rfl, [req], by simp, hledger', htally', ?_⟩
          show next.scheduledReqSize + 1 ≤ _
          omega
        · rw [if_neg hlast]
          refine (ih hledger' htally' (not_le.1 hlast)).imp_left ?_
          rintro ⟨batch', hscan, more, hsub, hledger'', hend⟩
          exact ⟨batch', hscan, req :: more, hsub.cons_cons req, by simpa using hledger'', hend⟩

structure FinalChunk (s : PyMicroBatchScheduler) (req req' : LlmRequest) : Prop where
  same : req.SameRequest req'
  whole : ∀ config ∈ s.ctxChunkConfig, ∀ batch, Whole (s.chunkLimits config batch) config.chunkingPolicy req'

theorem nonneg_of_map_cast {limit : Option ℕ} : ∀ m ∈ limit.map Nat.cast, (0 : ℤ) ≤ m := by
  intro m hm
  obtain ⟨n, -, rfl⟩ := map_eq_some_iff.1 hm
  exact Int.natCast_nonneg n

theorem chooseChunks_spec {fuel : ℕ} (htally : Tally s batch) (hfuel : roundBound batch.contextsToBeChunked ≤ fuel) :
    (∃ chunked, s.chooseChunks fuel batch = .ok chunked ∧
      List.Forall₂ (FinalChunk s) batch.contextsToBeChunked chunked ∧
      ∀ m ∈ s.tokenLimit, batch.batchNumTokens + (chunked.map chunkTokens).sum ≤ m) ∨
    ∃ e, s.chooseChunks fuel batch = .error e ∧ e.IsLimitError := by
  have hkeep : List.Forall₂ (FinalChunk s) batch.contextsToBeChunked batch.contextsToBeChunked :=
    forall₂_same.2 fun req hreq =>
      ⟨.refl req, fun _ _ _ => ⟨(htally.full req hreq).le, .inr (.inl (htally.full req hreq))⟩⟩
  unfold chooseChunks
  cases hconfig : s.ctxChunkConfig with
  | none =>
    refine .inl ⟨_, rfl, hkeep, fun m hm => ?_⟩
    simpa [htally.noChunks hconfig] using htally.limit m hm
  | some config =>
    by_cases hdone : s.allContextRequestsFit batch || batch.contextsToBeChunked.isEmpty
    · refine .inl ⟨batch.contextsToBeChunked, if_pos hdone, hkeep, fun m hm => ?_⟩
      by_cases hempty : batch.contextsToBeChunked = []
      · simpa [hempty] using htally.limit m hm
      have hfits : s.allContextRequestsFit batch := by simpa [hempty] using hdone
      simp only [allContextRequestsFit, Bool.and_eq_true, mem_def.1 hm, any_some,
        Bool.not_eq_true', decide_eq_false_iff_not] at hfits
      rw [← htally.fit hfits.1.1]
      omega
    · simp only [if_neg hdone]
      have hcap : (s.chunkLimits config batch).NonNeg := by
        intro c hc
        obtain ⟨m, hm, rfl⟩ := map_eq_some_iff.1 hc
        have := htally.limit m hm
        omega
      by_cases hforced : config.chunkingPolicy = .forceChunk ∧ ∃ m ∈ s.maxContextLength, m < config.chunkUnitSize
      · obtain ⟨hpolicy, m, hm, hsmall⟩ := hforced
        refine .inr ⟨.forcedChunkExceedsMaxContextLength config.chunkUnitSize m, ?_, trivial⟩
        rw [hpolicy]
        exact setCtxRequestsChunkSize_forced_error hm hsmall
      · obtain ⟨chunked, hrun, hchunked, hfit⟩ := setCtxRequestsChunkSize_spec hcap
          config.chunkingPolicy (fun m hm => ⟨nonneg_of_map_cast m hm, fun hpolicy => by
            by_contra hsmall
            exact hforced ⟨hpolicy, m, hm, not_le.1 hsmall⟩⟩) hfuel
        refine .inl ⟨chunked, hrun, ?_, ?_⟩
        · refine hchunked.imp fun req req' h => ⟨h.same, ?_⟩
          intro config' hconfig' batch'
          obtain rfl : config = config' := some.inj (hconfig.symm.trans hconfig')
          exact ⟨h.whole.le_remaining, h.whole.boundary⟩
        · intro m hm
          have hle := hfit (m - batch.batchNumTokens) (by simp [chunkLimits, mem_def.1 hm])
          have hsum : (chunked.map chunkTokens).sum = (chunked.map chunkCompute).sum + (chunked.map draftCompute).sum :=
            sum_map_add
          omega

/-- What a returned context request costs: its chunk, or the whole context without chunking, net of reused tokens and
with the draft tokens computed behind it. -/
def contextTokens (s : PyMicroBatchScheduler) (req : LlmRequest) : ℤ :=
  match s.ctxChunkConfig with
  | none => reuseAdjustedCompute req.numTokens req.reusable req.contextRemainingLength + req.numDraftTokens
  | some _ => chunkTokens req

end PyMicroBatchScheduler

def ScheduledBatch.requests (out : ScheduledBatch) : List LlmRequest :=
  out.encoderRequests ++ (out.contextRequests ++ out.generationRequests)

def ScheduledBatch.numTokens (s : PyMicroBatchScheduler) (out : ScheduledBatch) : ℤ :=
  (out.encoderRequests.map fun r => (r.encoderOutputLen : ℤ)).sum + (out.generationRequests.map generationTokens).sum +
    (out.contextRequests.map s.contextTokens).sum

structure WithinBudget (s : PyMicroBatchScheduler) (activeRequests : List LlmRequest) (inflightRequestIds : List ℕ)
    (out : ScheduledBatch) : Prop where
  once : (out.requests.map requestId).Subperm (activeRequests.map requestId)
  active : ∀ req ∈ out.requests, ∃ req₀ ∈ activeRequests, req₀.SameRequest req
  notInflight : ∀ req ∈ out.requests, req.requestId ∉ inflightRequestIds
  batchSize : out.requests.length ≤ s.maxBatchSize
  sameBeamWidth : ∀ req ∈ out.generationRequests, ∀ req' ∈ out.generationRequests, req.beamWidth = req'.beamWidth
  tokens : ∀ m ∈ s.maxNumTokens, out.numTokens s ≤ m
  chunks : ∀ config ∈ s.ctxChunkConfig, ∀ req ∈ out.contextRequests,
    0 < req.contextChunkSize ∧ req.contextChunkSize ≤ req.contextRemainingLength ∧
      (config.chunkUnitSize ∣ req.contextChunkSize ∨ req.contextChunkSize = req.contextRemainingLength ∨
        (config.chunkingPolicy = .forceChunk ∧ req.contextCurrentPosition + req.contextChunkSize ∈ req.expectSnapshotPoints))

namespace PyMicroBatchScheduler

variable {s : PyMicroBatchScheduler}

theorem empty_tally : Tally s .empty where
  beam := by simp [empty]
  tokens := by simp [empty]
  limit := nonneg_of_map_cast
  noChunks _ := rfl
  onlyChunks _ := rfl
  full := by simp [empty]
  fit _ := rfl

variable {chunked : List LlmRequest}

/-- The three returned lists: the taken requests, in another order and without empty chunks. -/
structure Returned (batch : MicroBatch) (chunked : List LlmRequest) (out : ScheduledBatch) : Prop where
  encoder : out.encoderRequests.Perm batch.encoderRequests
  context : out.contextRequests.Perm (batch.contextRequests ++ chunked.filter fun r => decide (0 < r.contextChunkSize))
  generation : out.generationRequests.Perm batch.generationRequests

variable {out : ScheduledBatch}

theorem requests_subperm (hout : Returned batch chunked out) :
    out.requests.Subperm { batch with contextsToBeChunked := chunked }.taken := by
  refine ⟨batch.encoderRequests ++ (batch.contextRequests ++ (batch.generationRequests ++
    chunked.filter fun r => decide (0 < r.contextChunkSize))), .symm ?_, ?_⟩
  · refine (hout.encoder.append (hout.context.append hout.generation)).trans (.append_left _ ?_)
    rw [append_assoc]
    exact .append_left _ perm_append_comm
  · exact ((filter_sublist.append_left _).append_left _).append_left _

section Chunked

variable (hchunked : List.Forall₂ (FinalChunk s) batch.contextsToBeChunked chunked)

include hchunked

theorem Ledger.rechunk (h : Ledger inflight visited batch) :
    Ledger inflight visited { batch with contextsToBeChunked := chunked } := by
  have hkeep (reqs : List LlmRequest) : List.Forall₂ SameRequest reqs reqs := forall₂_same.2 fun r _ => .refl r
  have hall : List.Forall₂ SameRequest batch.taken { batch with contextsToBeChunked := chunked }.taken :=
    rel_append (hkeep _) (rel_append (hkeep _) (rel_append (hkeep _) (hchunked.imp fun _ _ h => h.same)))
  refine ⟨?_, fun req hreq => ?_, h.notInflight, h.size.trans hall.length_eq⟩
  · rw [← map_eq_of_forall₂ (fun _ _ h => h.requestId_eq.symm) hall]
    exact h.ids
  · obtain ⟨req₁, hreq₁, hsame₁⟩ := exists_of_mem_forall₂ hall hreq
    obtain ⟨req₀, hreq₀, hsame₀⟩ := h.same req₁ hreq₁
    exact ⟨req₀, hreq₀, hsame₀.trans hsame₁⟩

theorem numTokens_le (htally : Tally s batch)
    (hout : Returned batch chunked out) : out.numTokens s ≤ batch.batchNumTokens + (chunked.map chunkTokens).sum := by
  have hcost : (out.contextRequests.map s.contextTokens).sum ≤
      (batch.contextRequests.map fullContextCompute).sum + (chunked.map chunkTokens).sum := by
    rw [(hout.context.map s.contextTokens).sum_eq]
    cases hconfig : s.ctxChunkConfig with
    | none =>
      rw [htally.noChunks hconfig] at hchunked
      cases hchunked
      have hle : (batch.contextRequests.map s.contextTokens).sum ≤ (batch.contextRequests.map fullContextCompute).sum :=
        by
        refine sum_le_sum fun req _ => ?_
        simp only [contextTokens, hconfig]
        exact le_max_right _ _
      simpa using hle
    | some config =>
      have hsome : s.ctxChunkConfig ≠ none := by simp [hconfig]
      have htokens : s.contextTokens = chunkTokens := by
        funext req
        simp only [contextTokens, hconfig]
      have hnonneg : ∀ req ∈ chunked, 0 ≤ chunkTokens req := by
        refine forall_mem_of_forall₂ (fun _ _ h => ?_) hchunked
        have hle := (h.whole config hconfig batch).le_remaining
        unfold chunkTokens chunkCompute draftCompute
        rw [computeOf_eq_min (by exact_mod_cast hle)]
        split_ifs <;> omega
      have hle : ((chunked.filter fun r => decide (0 < r.contextChunkSize)).map chunkTokens).sum ≤
          (chunked.map chunkTokens).sum := by
        apply (filter_sublist.map chunkTokens).sum_le_sum
        simpa using hnonneg
      rw [htally.onlyChunks hsome, htokens]
      simpa using hle
  rw [ScheduledBatch.numTokens, (hout.encoder.map _).sum_eq, (hout.generation.map _).sum_eq, htally.tokens]
  omega

theorem withinBudget {active : List LlmRequest} (hsub : visited.Sublist active)
    (hledger : Ledger inflight visited batch) (htally : Tally s batch)
    (hsize : batch.scheduledReqSize ≤ s.maxBatchSize)
    (hfit : ∀ m ∈ s.tokenLimit, batch.batchNumTokens + (chunked.map chunkTokens).sum ≤ m)
    (hout : Returned batch chunked out) : WithinBudget s active inflight out := by
  have hfinal := hledger.rechunk hchunked
  have hkept := requests_subperm hout
  obtain ⟨kept, hperm, hsublist⟩ := requests_subperm hout
  have hids : (out.requests.map requestId).Subperm _ := ⟨_, hperm.map requestId, hsublist.map requestId⟩
  refine ⟨(hids.trans hfinal.ids.subperm).trans (hsub.map requestId).subperm, ?_, ?_, ?_, ?_, ?_, ?_⟩
  · intro req hreq
    obtain ⟨req₀, hreq₀, hsame⟩ := hfinal.same req (hkept.subset hreq)
    exact ⟨req₀, hsub.subset hreq₀, hsame⟩
  · intro req hreq
    obtain ⟨req₀, hreq₀, hsame⟩ := hfinal.same req (hkept.subset hreq)
    rw [hsame.requestId_eq]
    exact hledger.notInflight req₀ hreq₀
  · exact hkept.length_le.trans (hfinal.size.ge.trans hsize)
  · intro req hreq req' hreq'
    rw [htally.beam req (hout.generation.mem_iff.1 hreq), htally.beam req' (hout.generation.mem_iff.1 hreq')]
  · intro m hm
    have hle := numTokens_le hchunked htally hout
    have hbound := hfit m (by simp [tokenLimit, mem_def.1 hm])
    omega
  · intro config hconfig req hreq
    have hsome : s.ctxChunkConfig ≠ none := by simp [mem_def.1 hconfig]
    have hmem := hout.context.mem_iff.1 hreq
    rw [htally.onlyChunks hsome, nil_append, mem_filter] at hmem
    have hfinal := forall_mem_of_forall₂ (fun _ _ h => h.whole config hconfig batch) hchunked req hmem.1
    exact ⟨by simpa using hmem.2, hfinal.le_remaining, hfinal.boundary⟩

end Chunked

/-- With enough rounds allowed, `schedule` ends: it returns a batch within all budgets, or it reports that a
limit is too small for a request. -/
theorem schedule_within_budget (s : PyMicroBatchScheduler) (activeRequests : List LlmRequest)
    (inflightRequestIds : List ℕ) (hbatch : 0 < s.maxBatchSize) :
    ∃ rounds, ∀ fuel, rounds ≤ fuel →
      (∃ out, s.schedule fuel activeRequests inflightRequestIds = .ok out ∧
        WithinBudget s activeRequests inflightRequestIds out) ∨
      ∃ e, s.schedule fuel activeRequests inflightRequestIds = .error e ∧ e.IsLimitError := by
  have hempty : Ledger inflightRequestIds [] .empty := ⟨.nil, by simp [taken, empty], by simp, rfl⟩
  rcases scan_spec hempty empty_tally hbatch with
    ⟨batch, hscan, visited, hsub, hledger, htally, hsize⟩ | ⟨e, hscan, hlimit⟩
  swap
  · refine ⟨0, fun fuel _ => .inr ⟨e, ?_, hlimit⟩⟩
    rw [schedule, hscan]
  refine ⟨roundBound batch.contextsToBeChunked, fun fuel hfuel => ?_⟩
  rcases chooseChunks_spec htally hfuel with ⟨chunked, hrun, hchunked, hfit⟩ | ⟨e, hrun, hlimit⟩
  swap
  · refine .inr ⟨e, ?_, hlimit⟩
    simp only [schedule, hscan, hrun]
  set out : ScheduledBatch := {
    encoderRequests := sortByLoraTaskId batch.encoderRequests
    contextRequests := sortContextRequests (!s.allContextRequestsFit batch)
      (batch.contextRequests ++ chunked.filter fun r => decide (0 < r.contextChunkSize))
    generationRequests := sortByLoraTaskId batch.generationRequests } with hout
  refine .inl ⟨out, by simp only [schedule, hscan, hrun, hout], ?_⟩
  exact withinBudget hchunked hsub hledger htally hsize hfit
    ⟨sortByLoraTaskId_perm _, sortContextRequests_perm _ _, sortByLoraTaskId_perm _⟩

/-- A generation request, a context served from the cache and a long one: the long one gets what is left. -/
theorem schedule_within_budget_three_requests : let unit : ContextChunkingConfig := ⟨.equalProgress, 4, by decide⟩
    let s : PyMicroBatchScheduler := ⟨8, some 16, some unit, .contextInit, .generationToComplete⟩
    let generating := { arrived 1 5 with state := .generationInProgress, numDraftTokens := 2 }
    let cached := { arrived 2 12 with estimatedReusableTokens := 8, numDraftTokens := 3 }
    let long := .arrived 3 40
    let active := [generating, cached, long, arrived 4 40]
    s.schedule 100 active [4] = .ok ⟨[], [{ long with contextChunkSize := 8 },
        { cached with numDraftTokens := 0 }], [generating]⟩ ∧
      ∃ rounds, ∀ fuel, rounds ≤ fuel →
        (∃ out, s.schedule fuel active [4] = .ok out ∧ WithinBudget s active [4] out) ∨
        ∃ e, s.schedule fuel active [4] = .error e ∧ e.IsLimitError := by
  refine ⟨by decide +kernel, schedule_within_budget _ _ _ (by decide)⟩

/-- The batch size is compared with its limit after a request is taken; without a chunking policy a request keeps the
chunk it has; and a chunk that is not the last one keeps all draft tokens. -/
theorem schedule_limits_not_exact :
    (schedule ⟨0, none, none, .contextInit, .generationToComplete⟩ 0 [arrived 1 5] [] = .ok ⟨[], [arrived 1 5], []⟩) ∧
    (schedule ⟨1, none, none, .contextInit, .generationToComplete⟩ 0
      [{ arrived 1 5 with contextChunkSize := 0 }] [] =
      .ok ⟨[], [{ arrived 1 5 with contextChunkSize := 0 }], []⟩) ∧
    (schedule ⟨1, some 4, some ⟨.firstComeFirstServed, 4, by decide⟩, .contextInit,
        .generationToComplete⟩ 0 [{ arrived 1 10 with numDraftTokens := 5 }] [] =
      .ok ⟨[], [{ arrived 1 10 with contextChunkSize := 4, numDraftTokens := 5 }], []⟩) := by
  decide +kernel

end PyMicroBatchScheduler

end TrtLlm.Scheduler
