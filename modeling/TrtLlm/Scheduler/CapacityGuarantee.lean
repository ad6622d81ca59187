import TrtLlm.Scheduler.Capacity
import TrtLlm.Lib.Quota

/-!
# What the scheduler that never evicts guarantees

The scheduler's ledger of available blocks is exact: in both pools it is the free blocks without the remaining blocks of
the scheduled requests, encoder requests apart, which reserve nothing. A started request that the call leaves out is not
in it, so the guarantee holds when the blocks of those left out still fit in what the call leaves.
-/

namespace TrtLlm.Scheduler.CapacityScheduler

open List LlmRequest

variable {s : CapacityScheduler} {adm adm' : Admission} {req : LlmRequest}

def started (req : LlmRequest) : Bool := req.isGenerationInProgressState || (req.isContextInitState && !req.isFirstContextChunk)

variable (scheduledRequests : List LlmRequest)

def reserving : List LlmRequest := scheduledRequests.filter fun req => !req.isEncoderInitState

def newlyAdmitted : List LlmRequest := (reserving scheduledRequests).filter fun req => !started req

def leftBehind (activeRequests scheduledRequests : List LlmRequest) : List LlmRequest :=
  (activeRequests.filter started).diff (scheduledRequests.filter started)

/-- The self pool and, in an encoder-decoder model, the cross pool, each with what is available in it. -/
inductive Pool (s : CapacityScheduler) (adm : Admission) : KvCacheManager → List (ℕ × ℤ) → Prop where
  | self : Pool s adm s.kvCacheManager adm.availableBlocks
  | cross {manager : KvCacheManager} {available : List (ℕ × ℤ)} (hmanager : s.crossKvCacheManager = some manager)
      (havailable : adm.availableCrossBlocks = some available) : Pool s adm manager available

variable {mgr : KvCacheManager} {avail : List (ℕ × ℤ)}

theorem Pool.of_eq (h : Pool s adm' mgr avail) (hself : adm'.availableBlocks = adm.availableBlocks)
    (hcross : adm'.availableCrossBlocks = adm.availableCrossBlocks) : Pool s adm mgr avail := by
  cases h with
  | self =>
    rw [hself]
    exact .self
  | cross hmanager havailable => exact .cross hmanager (hcross ▸ havailable)

theorem Pool.of_reserveBlocks (h : Pool s (s.reserveBlocks adm req) mgr avail) :
    ∃ before, Pool s adm mgr before ∧ avail = decrementReservedBlocks (s.neededBlocks mgr req) before := by
  cases h with
  | self => exact ⟨_, .self, rfl⟩
  | cross hmanager havailable =>
    simp only [reserveBlocks, hmanager, Option.bind_some, Option.map_eq_some_iff] at havailable
    obtain ⟨before, hbefore, rfl⟩ := havailable
    exact ⟨before, .cross hmanager hbefore, rfl⟩

theorem Pool.enough (h : Pool s adm mgr avail) (hself : s.enoughBlocks adm req)
    (hcross : s.enoughCrossBlocks adm req) : enoughAvailableBlocks (s.neededBlocks mgr req) avail := by
  cases h with
  | self => exact hself
  | cross hmanager havailable => simpa [enoughCrossBlocks, hmanager, havailable] using hcross

/-- The ledger is exact; and once the call has admitted a request that was not started, it is not overdrawn. -/
structure Ledger (s : CapacityScheduler) (adm : Admission) : Prop where
  exact : ∀ manager available, Pool s adm manager available →
    available = Quota.left (s.neededBlocks manager) manager.numFreeBlocks (reserving adm.scheduledRequests)
  solvent : newlyAdmitted adm.scheduledRequests ≠ [] →
    ∀ manager available, Pool s adm manager available → ∀ entry ∈ available, 0 ≤ entry.2
  tracked : s.crossKvCacheManager.isSome → adm.availableCrossBlocks.isSome

structure Frame (adm adm' : Admission) : Prop where
  scheduled : adm'.scheduledRequests = adm.scheduledRequests
  blocks : adm'.availableBlocks = adm.availableBlocks
  crossBlocks : adm'.availableCrossBlocks = adm.availableCrossBlocks

theorem Ledger.frame (h : Ledger s adm) (hframe : Frame adm adm') : Ledger s adm' where
  exact mgr avail hpool := hframe.scheduled ▸ h.exact mgr avail (hpool.of_eq hframe.blocks hframe.crossBlocks)
  solvent hnew mgr avail hpool :=
    h.solvent (hframe.scheduled ▸ hnew) mgr avail (hpool.of_eq hframe.blocks hframe.crossBlocks)
  tracked := hframe.crossBlocks ▸ h.tracked

theorem Ledger.reserve (h : Ledger s adm) (hreq : ¬req.isEncoderInitState)
    (henough : newlyAdmitted (adm.scheduledRequests ++ [req]) ≠ [] →
      ∀ mgr avail, Pool s adm mgr avail → enoughAvailableBlocks (s.neededBlocks mgr req) avail) :
    Ledger s (s.reserveBlocks { adm with scheduledRequests := adm.scheduledRequests ++ [req] } req) where
  exact mgr avail hpool := by
    obtain ⟨before, hbefore, rfl⟩ := hpool.of_reserveBlocks
    change _ = Quota.left _ _ (reserving (adm.scheduledRequests ++ [req]))
    have happend : reserving (adm.scheduledRequests ++ [req]) = reserving adm.scheduledRequests ++ [req] := by simp [reserving, hreq]
    rw [happend, Quota.left_append_singleton, ← h.exact mgr before (hbefore.of_eq rfl rfl)]
    rfl
  solvent hnew mgr avail hpool := by
    obtain ⟨before, hbefore, rfl⟩ := hpool.of_reserveBlocks
    have henough := henough hnew mgr before (hbefore.of_eq rfl rfl)
    simp only [enoughAvailableBlocks, all_eq_true, decide_eq_true_eq] at henough
    simp only [decrementReservedBlocks, forall_mem_map]
    exact fun entry hentry => sub_nonneg.2 (henough entry hentry)
  tracked hcross := by
    obtain ⟨mgr, hmanager⟩ := Option.isSome_iff_exists.1 hcross
    simpa [reserveBlocks, hmanager] using h.tracked hcross

theorem Ledger.append_encoder (h : Ledger s adm) (hreq : req.isEncoderInitState) :
    Ledger s { adm with scheduledRequests := adm.scheduledRequests ++ [req] } := by
  have hsame : reserving (adm.scheduledRequests ++ [req]) = reserving adm.scheduledRequests := by
    simp [reserving, hreq]
  have hnew : newlyAdmitted (adm.scheduledRequests ++ [req]) = newlyAdmitted adm.scheduledRequests := by
    rw [newlyAdmitted, hsame, newlyAdmitted]
  refine ⟨fun mgr avail hpool => ?_, fun hne mgr avail hpool => ?_, h.tracked⟩
  · rw [hsame]
    exact h.exact mgr avail (hpool.of_eq rfl rfl)
  · rw [hnew] at hne
    exact h.solvent hne mgr avail (hpool.of_eq rfl rfl)

theorem Ledger.start (active : List LlmRequest) : Ledger s (s.start active) where
  exact mgr avail hpool := by
    cases hpool with
    | self => exact Quota.left_nil.symm
    | cross hmanager havailable =>
      simp only [CapacityScheduler.start, hmanager, Option.map_some, Option.some.injEq] at havailable
      exact havailable ▸ Quota.left_nil.symm
  solvent hnew := absurd rfl hnew
  tracked hcross := by simpa [CapacityScheduler.start] using hcross

theorem Ledger.claimPeftPages (h : Ledger s adm) (req : LlmRequest) : Ledger s (s.claimPeftPages adm req) := by
  unfold CapacityScheduler.claimPeftPages
  split
  · exact h
  · exact h.frame ⟨rfl, rfl, rfl⟩

theorem claimPeftPages_scheduledRequests (adm : Admission) (req : LlmRequest) :
    (s.claimPeftPages adm req).scheduledRequests = adm.scheduledRequests := by
  unfold CapacityScheduler.claimPeftPages
  split <;> rfl

theorem not_isEncoderInitState_of_started (h : started req) : ¬req.isEncoderInitState := by
  unfold started isGenerationInProgressState isContextInitState at h
  unfold isEncoderInitState
  cases hstate : req.state <;> simp [hstate] at h ⊢

theorem Ledger.firstPass (h : Ledger s adm) (hnone : newlyAdmitted adm.scheduledRequests = []) (pending : Pending)
    (requests : List LlmRequest) :
    let out := s.firstPass adm pending requests
    Ledger s out.1 ∧
      ∀ x, out.1.scheduledRequests.count x + out.2.disGenInitRequests.count x + out.2.requests.count x ≤
        adm.scheduledRequests.count x + pending.disGenInitRequests.count x + pending.requests.count x + requests.count x := by
  induction requests generalizing adm pending with
  | nil => exact ⟨h, fun _ => le_rfl⟩
  | cons req rest ih =>
    rw [CapacityScheduler.firstPass]
    simp only [count_cons]
    split_ifs with hrange hfull hgeneration hdisagg
    · obtain ⟨hledger, hcount⟩ := ih h hnone pending
      exact ⟨hledger, fun x => by have := hcount x; omega⟩
    · exact ⟨h, fun x => by dsimp only; omega⟩
    · have hstarted : started req := by simp [started, hgeneration]
      have hnone' : newlyAdmitted (adm.scheduledRequests ++ [req]) = [] := by simpa [newlyAdmitted, reserving, hstarted] using hnone
      have hnext := ih (Ledger.claimPeftPages (h.reserve (not_isEncoderInitState_of_started hstarted)
        fun hnew => absurd hnone' hnew) req) (by rwa [claimPeftPages_scheduledRequests]) pending
      simp only [claimPeftPages_scheduledRequests, reserveBlocks, count_append, count_singleton] at hnext ⊢
      exact ⟨hnext.1, fun x => by have := hnext.2 x; omega⟩
    · have hnext := ih h hnone { pending with disGenInitRequests := pending.disGenInitRequests ++ [req] }
      simp only [count_append, count_singleton] at hnext
      exact ⟨hnext.1, fun x => by have := hnext.2 x; omega⟩
    · have hnext := ih h hnone { pending with requests := pending.requests ++ [req] }
      simp only [count_append, count_singleton] at hnext
      exact ⟨hnext.1, fun x => by have := hnext.2 x; omega⟩

theorem takePeftPages_frame (h : s.takePeftPages adm req = some adm') : Frame adm adm' := by
  unfold takePeftPages at h
  split at h
  · cases h
    exact ⟨rfl, rfl, rfl⟩
  · simp only at h
    split_ifs at h
    cases h
    exact ⟨rfl, rfl, rfl⟩

/-- What the body of the second loop can do with a request: pass over it, admit it for encoder compute, or admit it with a
reservation that fits. -/
inductive Step (s : CapacityScheduler) (adm : Admission) (req : LlmRequest) : Admission → Prop where
  | pass {adm' : Admission} (hframe : Frame adm adm') : Step s adm req adm'
  | encoder {adm' : Admission} (hframe : Frame adm adm') (hreq : req.isEncoderInitState) :
      Step s adm req { adm' with scheduledRequests := adm'.scheduledRequests ++ [req] }
  | reserve {adm' : Admission} (hframe : Frame adm adm') (hreq : ¬req.isEncoderInitState)
      (hself : s.enoughBlocks adm req) (hcross : s.enoughCrossBlocks adm req) :
      Step s adm req (s.reserveBlocks { adm' with scheduledRequests := adm'.scheduledRequests ++ [req] } req)

def Verdict.admission : Verdict → Admission
  | .next adm => adm
  | .stop adm => adm

theorem admitRequest_step (adm : Admission) (req : LlmRequest) : Step s adm req (s.admitRequest adm req).admission := by
  have hpass : Step s adm req adm := .pass ⟨rfl, rfl, rfl⟩
  unfold admitRequest
  split_ifs with hfull hencoder hcontext henough
  · exact hpass
  · unfold schedule
    split
    · exact hpass
    · rename_i adm' htake
      exact .encoder (takePeftPages_frame htake) hencoder
  · rw [Bool.and_eq_true] at henough
    unfold scheduleAndReserve
    split
    · exact hpass
    · rename_i adm' htake
      exact .reserve (takePeftPages_frame htake) hencoder henough.1 henough.2
  · exact hpass
  · exact hpass

variable {adm'' : Admission} {active : List LlmRequest}

theorem Frame.trans (h : Frame adm adm') (h' : Frame adm' adm'') : Frame adm adm'' :=
  ⟨h'.scheduled.trans h.scheduled, h'.blocks.trans h.blocks, h'.crossBlocks.trans h.crossBlocks⟩

theorem Frame.step (h : Frame adm adm') (hstep : Step s adm' req adm'') : Step s adm req adm'' := by
  cases hstep with
  | pass hframe => exact .pass (h.trans hframe)
  | encoder hframe hreq => exact .encoder (h.trans hframe) hreq
  | reserve hframe hreq hself hcross =>
    refine .reserve (h.trans hframe) hreq ?_ ?_
    · simpa only [enoughBlocks, h.blocks] using hself
    · simpa only [enoughCrossBlocks, h.crossBlocks] using hcross

theorem visitPending_step {verdict : Verdict} (h : s.visitPending adm req = .ok verdict) : Step s adm req verdict.admission := by
  have hframe : Frame adm (if s.isSkippingRelevant && !req.isDisaggGenerationInitState then s.beneficialToSkip adm req
      else (false, adm)).2 := by
    split_ifs
    · unfold beneficialToSkip
      dsimp only
      split_ifs <;> exact ⟨rfl, rfl, rfl⟩
    · exact ⟨rfl, rfl, rfl⟩
  unfold visitPending at h
  by_cases hmissing : req.isEncoderInitState && s.crossKvCacheManager.isNone
  · rw [if_pos hmissing] at h
    cases h
  rw [if_neg hmissing] at h
  generalize (if s.isSkippingRelevant && !req.isDisaggGenerationInitState then s.beneficialToSkip adm req
    else (false, adm)) = visited at h hframe
  obtain ⟨skipped, adm₁⟩ := visited
  cases skipped with
  | true =>
    cases h
    exact .pass hframe
  | false =>
    cases h
    exact hframe.step (admitRequest_step adm₁ req)

theorem Ledger.step (h : Ledger s adm) (hstep : Step s adm req adm') : Ledger s adm' := by
  cases hstep with
  | pass hframe => exact h.frame hframe
  | encoder hframe hreq => exact (h.frame hframe).append_encoder hreq
  | reserve hframe hreq hself hcross =>
    refine (h.frame hframe).reserve hreq fun _ mgr avail hpool => ?_
    exact (hpool.of_eq hframe.blocks hframe.crossBlocks).enough hself hcross

theorem Step.count_le (h : Step s adm req adm') (x : LlmRequest) :
    adm'.scheduledRequests.count x ≤ (adm.scheduledRequests ++ [req]).count x := by
  cases h with
  | pass hframe => simp [hframe.scheduled]
  | encoder hframe hreq => simp [hframe.scheduled]
  | reserve hframe hreq hself hcross => simp [reserveBlocks, hframe.scheduled]

theorem secondPass_spec {requests : List LlmRequest} (hrun : s.secondPass adm requests = .ok adm') (h : Ledger s adm) :
    Ledger s adm' ∧ ∀ x, adm'.scheduledRequests.count x ≤ (adm.scheduledRequests ++ requests).count x := by
  induction requests generalizing adm with
  | nil =>
    cases hrun
    exact ⟨h, fun x => by simp⟩
  | cons req rest ih =>
    rw [secondPass] at hrun
    cases hvisit : s.visitPending adm req with
    | error e => simp [hvisit] at hrun
    | ok verdict =>
      have hstep := visitPending_step hvisit
      rw [hvisit] at hrun
      cases verdict with
      | stop adm₁ =>
        cases hrun
        refine ⟨h.step hstep, fun x => ?_⟩
        have hcount := hstep.count_le x
        simp only [Verdict.admission, count_append, count_cons, count_nil] at hcount ⊢
        omega
      | next adm₁ =>
        obtain ⟨hledger, hrest⟩ := ih hrun (h.step hstep)
        refine ⟨hledger, fun x => ?_⟩
        have hcount := hstep.count_le x
        have hcount' := hrest x
        simp only [Verdict.admission, count_append, count_cons, count_nil] at hcount hcount' ⊢
        omega

theorem runPolicy_spec (h : s.runPolicy active = .ok adm) :
    Ledger s adm ∧ ∀ x, adm.scheduledRequests.count x ≤ active.count x := by
  obtain ⟨hfirst, hcount⟩ := (Ledger.start (s := s) active).firstPass rfl ⟨[], []⟩ active
  have hempty : (s.start active).scheduledRequests = [] := rfl
  simp only [runPolicy, Except.bind] at h
  split at h
  · cases h
  rename_i adm₂ hdisagg
  obtain ⟨hledger₂, hcount₂⟩ := secondPass_spec hdisagg (hfirst.frame ⟨rfl, rfl, rfl⟩)
  obtain ⟨hledger, hcount₃⟩ := secondPass_spec h hledger₂
  refine ⟨hledger, fun x => ?_⟩
  have h₁ := hcount x
  have h₂ := hcount₂ x
  have h₃ := hcount₃ x
  simp only [hempty, count_append, count_nil] at h₁ h₂ h₃
  omega

def managers (s : CapacityScheduler) : List KvCacheManager := s.kvCacheManager :: s.crossKvCacheManager.toList

theorem Ledger.exists_pool (h : Ledger s adm) (hmem : mgr ∈ s.managers) : ∃ avail, Pool s adm mgr avail := by
  rcases mem_cons.1 hmem with rfl | hcross
  · exact ⟨_, .self⟩
  · have hmanager : s.crossKvCacheManager = some mgr := Option.mem_toList.1 hcross
    obtain ⟨avail, havailable⟩ := Option.isSome_iff_exists.1 (h.tracked (by simp [hmanager]))
    exact ⟨avail, .cross hmanager havailable⟩

theorem started_append_newlyAdmitted_perm {reqs : List LlmRequest}
    (hcount : ∀ x, reqs.count x ≤ active.count x) :
    (active.filter started ++ newlyAdmitted reqs).Perm
      (reserving reqs ++ leftBehind active reqs) := by
  have hstarted : ((reqs.filter started) ++ leftBehind active reqs).Perm
      (active.filter started) := by
    refine subperm_append_diff_self_of_count_le fun x hx => ?_
    have hx' : started x := (mem_filter.1 hx).2
    rw [count_filter hx', count_filter hx']
    exact hcount x
  have hsame : (reserving reqs).filter started = reqs.filter started := by
    rw [reserving, filter_filter]
    refine filter_congr fun req _ => ?_
    by_cases hreq : started req
    · simp [not_isEncoderInitState_of_started hreq]
    · simp [hreq]
  have hreserving : (reqs.filter started ++ newlyAdmitted reqs).Perm (reserving reqs) := by
    rw [← hsame]
    exact filter_append_perm _ _
  calc (active.filter started ++ newlyAdmitted reqs).Perm
        (reqs.filter started ++ leftBehind active reqs ++
          newlyAdmitted reqs) := hstarted.symm.append_right _
    List.Perm _ (reqs.filter started ++ newlyAdmitted reqs ++
        leftBehind active reqs) := by
      rw [append_assoc, append_assoc]
      exact perm_append_comm.append_left _
    List.Perm _ _ := hreserving.append_right _

def promptPools (free crossFree : ℤ) : CapacityScheduler where
  maxNumRequests := 8
  kvCacheManager := promptPool free
  crossKvCacheManager := some (promptPool crossFree)
  peftCacheManager := none
  noScheduleUntilState := .encoderInit
  noScheduleAfterState := .generationComplete
  enablePrefixAwareScheduling := true

instance (need : LlmRequest → ℕ → ℕ) (pool : List (ℕ × ℤ)) (items : List LlmRequest) :
    Decidable (Quota.Covers need pool items) :=
  inferInstanceAs (Decidable (∀ entry ∈ pool, (Quota.total need items entry.1 : ℤ) ≤ entry.2))

end TrtLlm.Scheduler.CapacityScheduler
