import Mathlib
import TrtLlm.Scheduler.Chunking

/-!
# What the chunking policies guarantee

Each policy finishes, keeps the cost of all chunks within the capacity and ends every chunk on a unit boundary, at the
end of the context or, for forced chunks, at a snapshot point. Draft tokens are kept only within what the chunks left.
-/

namespace TrtLlm.Scheduler

open LlmRequest List

variable {l : ChunkLimits} {req req' : LlmRequest}

def ChunkLimits.NonNeg (l : ChunkLimits) : Prop := ∀ c ∈ l.capacity, 0 ≤ c

def ChunkLimits.Fits (l : ChunkLimits) (n : ℤ) : Prop := ∀ c ∈ l.capacity, n ≤ c

structure Whole (l : ChunkLimits) (policy : ChunkingPolicy) (req : LlmRequest) : Prop where
  le_remaining : req.contextChunkSize ≤ req.contextRemainingLength
  boundary : l.unitSize ∣ req.contextChunkSize ∨ req.contextChunkSize = req.contextRemainingLength ∨
    (policy = .forceChunk ∧ req.contextCurrentPosition + req.contextChunkSize ∈ req.expectSnapshotPoints)

structure Rechunked (l : ChunkLimits) (policy : ChunkingPolicy) (req req' : LlmRequest) : Prop where
  same : req.SameRequest req'
  numDraftTokens_eq : req'.numDraftTokens = req.numDraftTokens
  whole : Whole l policy req'

variable {policy : ChunkingPolicy} {reqs : List LlmRequest} {req'' : LlmRequest} {m total n : ℤ}

theorem Rechunked.trans (h : Rechunked l policy req req') (h' : Rechunked l policy req' req'') :
    Rechunked l policy req req'' where
  same := h.same.trans h'.same
  numDraftTokens_eq := h'.numDraftTokens_eq.trans h.numDraftTokens_eq
  whole := h'.whole

theorem whole_zero (policy : ChunkingPolicy) (req : LlmRequest) : Whole l policy (req.withContextChunkSize 0) where
  le_remaining := by simp
  boundary := .inl (by simp)

theorem withContextChunkSize_withContextChunkSize (m n : ℕ) :
    (req.withContextChunkSize m).withContextChunkSize n = req.withContextChunkSize n := rfl

structure Grown (l : ChunkLimits) (req req' : LlmRequest) : Prop extends Rechunked l .equalProgress req req' where
  grown : req.contextChunkSize ≤ req'.contextChunkSize

variable {p : Progress} {fuel : ℕ} {cap : Option ℤ}

theorem equalProgressStep_spec (hcap : l.Fits p.numComputeTokens) (hreq : Whole l .equalProgress req) :
    ∃ q req', equalProgressStep l p req = .ok (q, req') ∧ l.Fits q.numComputeTokens ∧
      Grown l req req' ∧ q.numComputeTokens + req.chunkCompute = p.numComputeTokens + req'.chunkCompute ∧
      q.numTokensSingleLoop + req.contextChunkSize = p.numTokensSingleLoop + req'.contextChunkSize := by
  have hbound : l.unitSize ∣ req.contextChunkSize ∨ req.contextChunkSize = req.contextRemainingLength := by
    simpa using hreq.boundary
  have hrefuse : Grown l req req := ⟨⟨.refl req, rfl, hreq⟩, le_rfl⟩
  unfold equalProgressStep
  have hself : req.withContextChunkSize req.contextChunkSize = req := by
    rw [withContextChunkSize, min_eq_left hreq.le_remaining]
  simp only [withContextChunkSize_withContextChunkSize, hself]
  split_ifs with hover hlong
  · exact ⟨p, req, rfl, hcap, hrefuse, rfl, rfl⟩
  · exact ⟨p, req, rfl, hcap, hrefuse, rfl, rfl⟩
  refine ⟨_, _, rfl, ?_, ⟨⟨sameRequest_withContextChunkSize _ _, rfl, by simp, ?_⟩, ?_⟩, ?_, ?_⟩
  · rw [Bool.not_eq_true] at hover
    exact exceeds_eq_false.1 hover
  · simp only [withContextChunkSize_contextChunkSize, withContextChunkSize_contextRemainingLength, min_assoc, min_self]
    rcases le_total (req.contextChunkSize + l.unitSize) req.contextRemainingLength with hle | hle
    · rw [min_eq_left hle]
      rcases hbound with hdvd | hend
      · exact .inl (dvd_add hdvd (dvd_refl _))
      · omega
    · rw [min_eq_right hle]
      exact .inr (.inl rfl)
  · have := hreq.le_remaining
    simp only [withContextChunkSize_contextChunkSize]
    omega
  · simp only [chunkCompute, (sameRequest_withContextChunkSize req _).computeOf_eq]
    omega
  · show p.numTokensSingleLoop + _ + _ = _
    omega

theorem sum_map_pair (F G : LlmRequest → ℤ) (reqs : List LlmRequest) :
    (reqs.map fun r => (F r, G r)).sum = ((reqs.map F).sum, (reqs.map G).sum) := by
  induction reqs with
  | nil => rfl
  | cons req reqs ih => simp [ih]

theorem equalProgressRound_spec (hcap : l.Fits p.numComputeTokens) (hreqs : ∀ req ∈ reqs, Whole l .equalProgress req) :
    ∃ q reqs', sweep (equalProgressStep l) p reqs = .ok (q, reqs') ∧ l.Fits q.numComputeTokens ∧
      List.Forall₂ (Grown l) reqs reqs' ∧
      q.numComputeTokens + (reqs.map chunkCompute).sum = p.numComputeTokens + (reqs'.map chunkCompute).sum ∧
      q.numTokensSingleLoop + (reqs.map fun r => (r.contextChunkSize : ℤ)).sum =
        p.numTokensSingleLoop + (reqs'.map fun r => (r.contextChunkSize : ℤ)).sum := by
  obtain ⟨q, reqs', hrun, hq, hgrown, hlevel⟩ := sweep_spec (fun p : Progress => l.Fits p.numComputeTokens)
    (Whole l .equalProgress) (Grown l) (fun p => (p.numComputeTokens, p.numTokensSingleLoop))
    (fun r => (r.chunkCompute, (r.contextChunkSize : ℤ))) (fun r => (r.chunkCompute, (r.contextChunkSize : ℤ)))
    (fun p req hp hreq => by
      obtain ⟨q, req', hstep, hq, hgrown, hcompute, htokens⟩ := equalProgressStep_spec hp hreq
      exact ⟨q, req', hstep, hq, hgrown, Prod.ext hcompute htokens⟩) hcap hreqs
  rw [sum_map_pair, sum_map_pair] at hlevel
  obtain ⟨hcompute, htokens⟩ := Prod.mk.inj hlevel
  exact ⟨q, reqs', hrun, hq, hgrown, hcompute, htokens⟩

theorem Grown.trans (h : Grown l req req') (h' : Grown l req' req'') : Grown l req req'' :=
  ⟨h.toRechunked.trans h'.toRechunked, h.grown.trans h'.grown⟩

/-- What the requests could still gain: every round that makes progress takes some of it. -/
def unclaimed (reqs : List LlmRequest) : ℤ :=
  (reqs.map fun r => (r.contextRemainingLength : ℤ)).sum - (reqs.map fun r => (r.contextChunkSize : ℤ)).sum

theorem unclaimed_nonneg (hreqs : ∀ req ∈ reqs, Whole l .equalProgress req) : 0 ≤ unclaimed reqs := by
  unfold unclaimed
  induction reqs with
  | nil => simp
  | cons req reqs ih =>
    have hhead := (hreqs req (by simp)).le_remaining
    have htail := ih fun r hr => hreqs r (by simp [hr])
    simp only [map_cons, sum_cons]
    omega

/-- The loop ends within any bound above what is unclaimed, and the counter is the cost of the chunks. -/
theorem equalProgressLoop_spec (hcap : l.Fits p.numComputeTokens)
    (hreqs : ∀ req ∈ reqs, Whole l .equalProgress req) (hcost : p.numComputeTokens = (reqs.map chunkCompute).sum)
    (hfuel : 0 < p.numTokensSingleLoop → unclaimed reqs < fuel) :
    ∃ reqs', equalProgressLoop l fuel p reqs = .ok reqs' ∧ List.Forall₂ (Grown l) reqs reqs' ∧
      l.Fits (reqs'.map chunkCompute).sum := by
  induction fuel generalizing p reqs with
  | zero =>
    have hstop : p.numTokensSingleLoop ≤ 0 := by
      have := unclaimed_nonneg hreqs
      omega
    refine ⟨reqs, ?_, ?_, ?_⟩
    · rw [equalProgressLoop, if_pos (by simp [hstop])]
    · exact forall₂_same.2 fun req hreq => ⟨⟨.refl req, rfl, hreqs req hreq⟩, le_rfl⟩
    · rwa [← hcost]
  | succ fuel ih =>
    by_cases hstop : l.capacity.any (fun c => decide (c ≤ p.numComputeTokens)) || decide (p.numTokensSingleLoop ≤ 0)
    · refine ⟨reqs, ?_, ?_, ?_⟩
      · rw [equalProgressLoop, if_pos hstop]
      · exact forall₂_same.2 fun req hreq => ⟨⟨.refl req, rfl, hreqs req hreq⟩, le_rfl⟩
      · rwa [← hcost]
    · obtain ⟨q, reqs', hround, hq, hgrown, hcompute, htokens⟩ :=
        equalProgressRound_spec (p := { p with numTokensSingleLoop := 0 }) hcap hreqs
      obtain ⟨reqs'', hloop, hgrown', hbound⟩ := ih hq (forall_mem_of_forall₂ (fun _ _ h => h.whole) hgrown) (by
          simp only at hcompute
          omega) (by
          have hleft := hfuel (by simp at hstop; omega)
          have hsum := sum_map_eq_of_forall₂ (fun _ _ h => congrArg Nat.cast h.same.contextRemainingLength_eq.symm) hgrown
          unfold unclaimed at hleft ⊢
          simp only at htokens
          omega)
      refine ⟨reqs'', ?_, forall₂_trans (fun _ _ _ h => h.trans) hgrown hgrown', hbound⟩
      rw [equalProgressLoop, if_neg hstop]
      simp only [hround, hloop]

theorem ediv_mul_le (m : ℤ) (u : ℕ) (hu : 0 < u) : m / u * u ≤ m := Int.ediv_mul_le m (by omega)

theorem ediv_mul_nonneg (u : ℕ) (hm : 0 ≤ m) : 0 ≤ m / u * u := mul_nonneg (Int.ediv_nonneg hm (by omega)) (by omega)

theorem setContextChunkSize_ok (policy : ChunkingPolicy) {size : ℤ} (hnonneg : 0 ≤ size) (hle : size ≤ req.contextRemainingLength)
    (hboundary : (l.unitSize : ℤ) ∣ size ∨ size = req.contextRemainingLength ∨
      policy = .forceChunk ∧ req.contextCurrentPosition + size.toNat ∈ req.expectSnapshotPoints) :
    ∃ req', req.setContextChunkSize size = .ok req' ∧ req'.contextChunkSize = size ∧ Rechunked l policy req req' := by
  obtain ⟨n, rfl⟩ := Int.eq_ofNat_of_zero_le hnonneg
  have hchunk : (req.withContextChunkSize n).contextChunkSize = n := by
    rw [withContextChunkSize_contextChunkSize, min_eq_left (by exact_mod_cast hle)]
  refine ⟨_, (if_neg (by omega)).trans (by rw [Int.toNat_natCast]), congrArg Nat.cast hchunk, sameRequest_withContextChunkSize req n, rfl, ?_, ?_⟩
  · rw [hchunk]
    exact_mod_cast hle
  · rw [hchunk]
    exact_mod_cast hboundary

variable (hmax : ∀ m ∈ l.maxContextLength, 0 ≤ m)

include hmax

theorem fcfsTarget_spec (req : LlmRequest) (hcap : ∀ c ∈ cap, 0 ≤ c) :
    0 ≤ fcfsTarget l cap req ∧ fcfsTarget l cap req ≤ req.contextRemainingLength ∧
      ∀ c ∈ cap, req.computeOf (fcfsTarget l cap req) ≤ c := by
  unfold fcfsTarget
  extract_lets suggested cost byCap
  have hfull : cost ≤ suggested := computeOf_le le_rfl
  -- the capacity alone already bounds the cost of the chunk
  have hbyCap : 0 ≤ byCap ∧ byCap ≤ suggested ∧ ∀ c ∈ cap, req.computeOf byCap ≤ c := by
    cases cap with
    | none => exact ⟨Int.natCast_nonneg _, le_rfl, by simp⟩
    | some c =>
      have hc := hcap c rfl
      by_cases hover : c < cost
      · have hsize : byCap = c := if_pos hover
        have hle : c ≤ suggested := by omega
        rw [hsize]
        refine ⟨hc, hle, ?_⟩
        rintro _ ⟨⟩
        exact computeOf_le hle
      · have hsize : byCap = suggested := if_neg hover
        rw [hsize]
        refine ⟨Int.natCast_nonneg _, le_rfl, ?_⟩
        rintro _ ⟨⟩
        exact not_lt.1 hover
  cases hm : l.maxContextLength with
  | none => exact hbyCap
  | some m =>
    have hm0 := hmax m hm
    have hle := computeOf_le hbyCap.2.1
    simp only
    split_ifs with hlong
    · refine ⟨by omega, min_le_right _ _, fun c hc => ?_⟩
      have hmono : req.computeOf (min m suggested) ≤ req.computeOf byCap := computeOf_mono (by omega) hbyCap.2.1
      exact hmono.trans (hbyCap.2.2 c hc)
    · exact hbyCap

theorem fcfsSize_spec (req : LlmRequest) (hcap : ∀ c ∈ cap, 0 ≤ c) :
    0 ≤ fcfsSize l cap req ∧ fcfsSize l cap req ≤ req.contextRemainingLength ∧
      ((l.unitSize : ℤ) ∣ fcfsSize l cap req ∨ fcfsSize l cap req = req.contextRemainingLength) ∧
      ∀ c ∈ cap, req.computeOf (fcfsSize l cap req) ≤ c := by
  obtain ⟨hnonneg, hle, hcost⟩ := fcfsTarget_spec hmax req hcap
  unfold fcfsSize
  simp only
  split_ifs with hcut
  · have halign := ediv_mul_le (fcfsTarget l cap req) l.unitSize l.unitSize_pos
    exact ⟨ediv_mul_nonneg _ hnonneg, by omega, .inl (dvd_mul_left _ _),
      fun c hc => (computeOf_mono halign hle).trans (hcost c hc)⟩
  · exact ⟨hnonneg, hle, .inr (by omega), hcost⟩

theorem fcfsStep_spec (req : LlmRequest) (hcap : ∀ c ∈ cap, 0 ≤ c) :
    ∃ req', fcfsStep l cap req = .ok (cap.map (· - req'.chunkCompute), req') ∧
      (∀ c ∈ cap, req'.chunkCompute ≤ c) ∧ Rechunked l .firstComeFirstServed req req' := by
  obtain ⟨hnonneg, hle, hboundary, hcost⟩ := fcfsSize_spec hmax req hcap
  obtain ⟨req', hset, hchunk, hrel⟩ := setContextChunkSize_ok .firstComeFirstServed hnonneg hle
    (hboundary.imp_right .inl)
  have hcompute : req'.chunkCompute = req.computeOf (fcfsSize l cap req) := by
    rw [chunkCompute, hchunk, hrel.same.computeOf_eq]
  refine ⟨req', ?_, hcompute ▸ hcost, hrel⟩
  rw [fcfsStep, hset]
  simp only [hchunk, hcompute]

omit hmax

theorem chunkFcfs_spec (hcap : l.NonNeg) (hmax : ∀ m ∈ l.maxContextLength, 0 ≤ m) (reqs : List LlmRequest) :
    ∃ reqs', chunkFcfs l reqs = .ok reqs' ∧ List.Forall₂ (Rechunked l .firstComeFirstServed) reqs reqs' ∧
      l.Fits (reqs'.map chunkCompute).sum := by
  -- what is left of the capacity drops by the cost of each chunk, and never below zero
  obtain ⟨left, reqs', hrun, ⟨hleft, hsome⟩, hrel, hbalance⟩ := sweep_spec
    (fun cap : Option ℤ => (∀ c ∈ cap, 0 ≤ c) ∧ cap.isSome = l.capacity.isSome) (fun _ => True)
    (Rechunked l .firstComeFirstServed) (fun cap => -cap.getD 0) (fun _ => 0)
    (if l.capacity.isSome then chunkCompute else fun _ => 0) (fun cap req hinv _ => by
      obtain ⟨hpos, hsome⟩ := hinv
      obtain ⟨req', hstep, hfit, hrel⟩ := fcfsStep_spec hmax req hpos
      refine ⟨_, req', hstep, ⟨fun c hc => ?_, Option.isSome_map.trans hsome⟩, hrel, ?_⟩
      · obtain ⟨d, hd, rfl⟩ := Option.map_eq_some_iff.1 hc
        have hle := hfit d hd
        omega
      · rw [← hsome]
        cases cap with
        | none => rfl
        | some d =>
          simp only [Option.map_some, Option.getD_some, Option.isSome_some, if_true]
          omega)
    ⟨hcap, rfl⟩ fun req (_ : req ∈ reqs) => trivial
  refine ⟨reqs', by rw [chunkFcfs, hrun]; rfl, hrel, fun c hc => ?_⟩
  rw [Option.mem_def.1 hc] at hsome hbalance
  obtain ⟨d, rfl⟩ := Option.isSome_iff_exists.1 hsome
  have hd := hleft d rfl
  simp at hbalance
  omega

theorem forcedContextChunkSize_spec (req : LlmRequest) :
    req.forcedContextChunkSize ≤ req.contextRemainingLength ∧
      (req.forcedContextChunkSize = req.contextRemainingLength ∨
        req.contextCurrentPosition + req.forcedContextChunkSize ∈ req.expectSnapshotPoints) := by
  unfold forcedContextChunkSize
  cases hmin : (req.expectSnapshotPoints.filter (req.contextCurrentPosition < ·)).min? with
  | none => exact ⟨le_rfl, .inl rfl⟩
  | some nextPoint =>
    have hmem := mem_filter.1 (min?_mem hmin)
    have hlater : req.contextCurrentPosition < nextPoint := by simpa using hmem.2
    simp only [contextRemainingLength]
    rcases le_total nextPoint req.promptLen with hle | hle
    · refine ⟨by omega, .inr ?_⟩
      rw [min_eq_left hle, Nat.add_sub_cancel' hlater.le]
      exact hmem.1
    · exact ⟨by omega, .inl (by rw [min_eq_right hle])⟩

section Forced

variable (hlimit : ∀ m ∈ l.maxContextLength, (l.unitSize : ℤ) ≤ m)

include hlimit

theorem forcedSize_spec (req : LlmRequest) (htotal : l.Fits total) :
    0 ≤ forcedSize l total req ∧ forcedSize l total req ≤ req.contextRemainingLength ∧
      ((l.unitSize : ℤ) ∣ forcedSize l total req ∨ forcedSize l total req = req.forcedContextChunkSize) ∧
      ∀ c ∈ l.capacity, total + forcedSize l total req ≤ c := by
  obtain ⟨hremaining, -⟩ := forcedContextChunkSize_spec req
  have hunit := l.unitSize_pos
  unfold forcedSize
  extract_lets wanted byLen
  have hbyLen : 0 ≤ byLen ∧ byLen ≤ wanted ∧ ((l.unitSize : ℤ) ∣ byLen ∨ byLen = wanted) := by
    cases hm : l.maxContextLength with
    | none => simp [byLen, hm, wanted]
    | some m =>
      have hle := hlimit m hm
      have hcut := ediv_mul_le m l.unitSize hunit
      have hcut' : 0 ≤ m / l.unitSize * l.unitSize := ediv_mul_nonneg l.unitSize (by omega)
      simp only [byLen, hm]
      split_ifs with hlong
      · exact ⟨hcut', by omega, .inl (dvd_mul_left _ _)⟩
      · exact ⟨by omega, le_rfl, .inr rfl⟩
  have hle : byLen ≤ req.contextRemainingLength := by omega
  cases hc : l.capacity with
  | none => exact ⟨hbyLen.1, hle, hbyLen.2.2, by simp⟩
  | some c =>
    have hfit := htotal c hc
    simp only [Option.mem_def, Option.some.injEq]
    split_ifs with hover
    · have hcut := ediv_mul_le (min byLen (max 0 (c - total))) l.unitSize hunit
      refine ⟨ediv_mul_nonneg _ (by omega), by omega, .inl (Int.dvd_mul_left _ _), by omega⟩
    · exact ⟨hbyLen.1, by omega, hbyLen.2.2, by omega⟩

theorem forcedSweep_spec (hcap : l.NonNeg) (reqs : List LlmRequest) :
    ∃ total reqs', sweep (forcedStep l) 0 reqs = .ok (total, reqs') ∧ chunkForced.run l reqs = .ok reqs' ∧
      List.Forall₂ (Rechunked l .forceChunk) reqs reqs' ∧
      l.Fits (reqs'.map fun req => (req.contextChunkSize : ℤ)).sum := by
  obtain ⟨total, reqs', hrun, htotal, hrel, hbalance⟩ := sweep_spec l.Fits (fun _ => True) (Rechunked l .forceChunk) id
    (fun _ => 0) (fun req => (req.contextChunkSize : ℤ)) (fun total req hinv _ => by
      obtain ⟨hnonneg, hle, hboundary, hfit⟩ := forcedSize_spec hlimit req hinv
      obtain ⟨req', hset, hchunk, hrel⟩ := setContextChunkSize_ok .forceChunk hnonneg hle (hboundary.imp_right fun h => by
        rw [h]
        exact (forcedContextChunkSize_spec req).2.imp (congrArg Nat.cast) fun hmem => ⟨rfl, hmem⟩)
      have hstep : forcedStep l total req = .ok (total + req'.contextChunkSize, req') := by rw [forcedStep, hset]
      exact ⟨_, req', hstep, hchunk ▸ hfit, hrel, by simp⟩) hcap fun req (_ : req ∈ reqs) => trivial
  obtain rfl : total = (reqs'.map fun req => (req.contextChunkSize : ℤ)).sum := by simpa using hbalance
  refine ⟨_, reqs', hrun, ?_, hrel, htotal⟩
  rw [chunkForced.run, hrun]
  simp only [exceeds_eq_false.2 htotal, Bool.false_eq_true, if_false]

theorem chunkForced_spec (hcap : l.NonNeg) (reqs : List LlmRequest) :
    ∃ reqs', chunkForced l reqs = .ok reqs' ∧ List.Forall₂ (Rechunked l .forceChunk) reqs reqs' ∧
      l.Fits (reqs'.map chunkCompute).sum := by
  obtain ⟨total, reqs', -, hok, hrel, htotal⟩ := forcedSweep_spec hlimit hcap reqs
  refine ⟨reqs', ?_, hrel, fun c hc => ?_⟩
  · unfold chunkForced
    cases hm : l.maxContextLength with
    | none => exact hok
    | some m =>
      have hle := hlimit m hm
      simp only [if_neg (not_lt.2 hle), hok]
  · refine (sum_le_sum fun req hreq => computeOf_le ?_).trans (htotal c hc)
    have hwhole := forall_mem_of_forall₂ (fun _ _ h => h.whole) hrel req hreq
    exact_mod_cast hwhole.le_remaining

end Forced

/-- The draft tokens that the model computes: those behind a last chunk. -/
def LlmRequest.draftCompute (req : LlmRequest) : ℤ := if req.isLastContextChunk then req.numDraftTokens else 0

structure Trimmed (req req' : LlmRequest) : Prop where
  same : req.SameRequest req'
  contextChunkSize_eq : req'.contextChunkSize = req.contextChunkSize
  numDraftTokens_le : req'.numDraftTokens ≤ req.numDraftTokens

theorem Trimmed.chunkCompute_eq (h : Trimmed req req') : req'.chunkCompute = req.chunkCompute := by
  rw [chunkCompute, chunkCompute, h.same.computeOf_eq, h.contextChunkSize_eq]

theorem keptDrafts_nonneg (n : ℤ) (req : LlmRequest) : 0 ≤ keptDrafts l n req := by
  unfold keptDrafts
  cases l.capacity <;> simp only <;> omega

theorem keptDrafts_le (n : ℤ) (req : LlmRequest) : keptDrafts l n req ≤ req.numDraftTokens := by
  unfold keptDrafts
  cases l.capacity <;> simp only <;> omega

theorem discardDraftTokens_kept {kept : ℕ} (hkept : kept < req.numDraftTokens) :
    req.discardDraftTokens (req.numDraftTokens - kept) = .ok { req with numDraftTokens := kept } := by
  unfold discardDraftTokens
  rw [if_neg (by omega), if_neg (by omega), sub_sub_cancel, Int.toNat_natCast]

theorem fitDraftTokensStep_last (hlast : req.isLastContextChunk && req.hasDraftTokens) (n : ℤ) :
    fitDraftTokensStep l n req = .ok (charge l n (keptDrafts l n req),
      { req with numDraftTokens := (keptDrafts l n req).toNat }) := by
  unfold fitDraftTokensStep
  obtain ⟨kept, hkept⟩ := Int.eq_ofNat_of_zero_le (keptDrafts_nonneg (l := l) n req)
  have hle := keptDrafts_le (l := l) n req
  simp only [if_pos hlast, hkept] at hle ⊢
  by_cases hdrop : kept < req.numDraftTokens
  · rw [if_pos (by omega), discardDraftTokens_kept hdrop]
    rfl
  · have hall : kept = req.numDraftTokens := by omega
    rw [if_neg (by omega)]
    subst hall
    rfl

theorem fitDraftTokensStep_other (hlast : ¬(req.isLastContextChunk && req.hasDraftTokens)) (n : ℤ) :
    fitDraftTokensStep l n req = .ok (n, req) := by
  rw [fitDraftTokensStep, if_neg hlast]

/-- The step keeps what `keptDrafts` allows behind a last chunk, and charges what the model computes. -/
theorem fitDraftTokensStep_spec (hn : l.Fits n) (req : LlmRequest) :
    ∃ req', fitDraftTokensStep l n req = .ok (charge l n req'.draftCompute, req') ∧ Trimmed req req' ∧
      l.Fits (charge l n req'.draftCompute) := by
  by_cases hlast : req.isLastContextChunk && req.hasDraftTokens
  · have hnonneg := keptDrafts_nonneg (l := l) n req
    have hle := keptDrafts_le (l := l) n req
    have htrim : Trimmed req { req with numDraftTokens := (keptDrafts l n req).toNat } := ⟨rfl, rfl, by simp; omega⟩
    have hcompute : LlmRequest.draftCompute { req with numDraftTokens := (keptDrafts l n req).toNat } = keptDrafts l n req := by
      have hlast' : req.isLastContextChunk := by simp_all
      exact (if_pos hlast').trans (Int.toNat_of_nonneg hnonneg)
    refine ⟨_, ?_, htrim, ?_⟩
    · rw [hcompute]
      exact fitDraftTokensStep_last hlast n
    · intro c hc
      rw [hcompute, charge]
      have hle := hn c hc
      simp only [keptDrafts, Option.mem_def.1 hc]
      omega
  · have hcharge : charge l n req.draftCompute = n := by
      have hzero : req.draftCompute = 0 := by
        unfold draftCompute
        split_ifs with h
        · simpa [hasDraftTokens, h] using hlast
        · rfl
      rw [hzero, charge, add_zero, ite_self]
    refine ⟨req, ?_, ⟨.refl req, rfl, le_rfl⟩, ?_⟩
    · rw [hcharge]
      exact fitDraftTokensStep_other hlast n
    · rwa [hcharge]

theorem fitDraftTokens_spec (hcap : l.Fits (reqs.map chunkCompute).sum) :
    ∃ reqs', fitDraftTokens l reqs = .ok reqs' ∧ List.Forall₂ Trimmed reqs reqs' ∧
      l.Fits ((reqs'.map chunkCompute).sum + (reqs'.map draftCompute).sum) := by
  obtain ⟨n, reqs', hrun, hn, hrel, hbalance⟩ := sweep_spec l.Fits (fun _ => True)
    Trimmed id (fun _ => 0) (fun req => if l.capacity.isSome then req.draftCompute else 0)
    (fun n req hinv _ => by
      obtain ⟨req', hstep, htrim, hfit⟩ := fitDraftTokensStep_spec hinv req
      refine ⟨_, req', hstep, hfit, htrim, ?_⟩
      unfold charge
      split_ifs <;> simp) hcap fun req (_ : req ∈ reqs) => trivial
  refine ⟨reqs', by rw [fitDraftTokens, hrun]; rfl, hrel, ?_⟩
  intro c hc
  have hsame := sum_map_eq_of_forall₂ (fun _ _ h => h.chunkCompute_eq.symm) hrel
  have hle := hn c hc
  have hspent : n = (reqs.map chunkCompute).sum + (reqs'.map draftCompute).sum := by
    simpa [Option.mem_def.1 hc] using hbalance
  omega

/-- A request after chunking: its chunk ends where it may, its draft tokens are at most what they were. -/
structure Chunked (l : ChunkLimits) (policy : ChunkingPolicy) (req req' : LlmRequest) : Prop where
  same : req.SameRequest req'
  numDraftTokens_le : req'.numDraftTokens ≤ req.numDraftTokens
  whole : Whole l policy req'

def roundBound (reqs : List LlmRequest) : ℕ := (reqs.map contextRemainingLength).sum + 1

theorem assignChunks_spec (hcap : l.NonNeg)
    (hmax : ∀ m ∈ l.maxContextLength, 0 ≤ m ∧ (policy = .forceChunk → (l.unitSize : ℤ) ≤ m))
    (hfuel : roundBound reqs ≤ fuel) :
    ∃ reqs', assignChunks l fuel policy reqs = .ok reqs' ∧ List.Forall₂ (Rechunked l policy) reqs reqs' ∧
      l.Fits (reqs'.map chunkCompute).sum := by
  have hreset : List.Forall₂ (Rechunked l policy) reqs (reqs.map (·.withContextChunkSize 0)) := by
    rw [forall₂_map_right_iff]
    exact forall₂_same.2 fun req _ => ⟨sameRequest_withContextChunkSize req 0, rfl, whole_zero policy req⟩
  suffices ∃ reqs', assignChunks l fuel policy reqs = .ok reqs' ∧
      List.Forall₂ (Rechunked l policy) (reqs.map (·.withContextChunkSize 0)) reqs' ∧
      l.Fits (reqs'.map chunkCompute).sum by
    obtain ⟨reqs', hrun, hrel, hfit⟩ := this
    exact ⟨reqs', hrun, forall₂_trans (fun _ _ _ h => h.trans) hreset hrel, hfit⟩
  cases policy with
  | firstComeFirstServed => exact chunkFcfs_spec hcap (fun m hm => (hmax m hm).1) _
  | forceChunk => exact chunkForced_spec (fun m hm => (hmax m hm).2 rfl) hcap _
  | equalProgress =>
    have hzero : ((reqs.map (·.withContextChunkSize 0)).map chunkCompute).sum = 0 := by
      apply sum_eq_zero
      simp [chunkCompute, computeOf_zero]
    have hbound : unclaimed (reqs.map (·.withContextChunkSize 0)) < fuel := by
      unfold unclaimed
      have hchunks : ((reqs.map (·.withContextChunkSize 0)).map fun r => (r.contextChunkSize : ℤ)).sum = 0 := by
        apply sum_eq_zero
        simp
      have hremaining : ((reqs.map (·.withContextChunkSize 0)).map fun r => (r.contextRemainingLength : ℤ)).sum =
          ((reqs.map contextRemainingLength).sum : ℕ) := by
        rw [Nat.cast_list_sum, map_map, map_map]
        rfl
      unfold roundBound at hfuel
      omega
    obtain ⟨reqs', hrun, hrel, hfit⟩ := equalProgressLoop_spec (p := ⟨0, 1⟩) hcap
      (forall_mem_of_forall₂ (fun _ _ h => h.whole) hreset) hzero.symm fun _ => hbound
    exact ⟨reqs', hrun, hrel.imp fun _ _ h => h.toRechunked, hfit⟩

/-- With enough rounds allowed, chunking finishes, gives whole chunks and stays within the capacity, draft
tokens included. -/
theorem setCtxRequestsChunkSize_spec (hcap : l.NonNeg) (policy : ChunkingPolicy)
    (hmax : ∀ m ∈ l.maxContextLength, 0 ≤ m ∧ (policy = .forceChunk → (l.unitSize : ℤ) ≤ m))
    (hfuel : roundBound reqs ≤ fuel) :
    ∃ reqs', setCtxRequestsChunkSize l fuel policy reqs = .ok reqs' ∧ List.Forall₂ (Chunked l policy) reqs reqs' ∧
      l.Fits ((reqs'.map chunkCompute).sum + (reqs'.map draftCompute).sum) := by
  obtain ⟨assigned, hassign, hrechunked, hfit⟩ := assignChunks_spec hcap hmax hfuel
  obtain ⟨reqs', hdrafts, htrimmed, hfit'⟩ := fitDraftTokens_spec hfit
  refine ⟨reqs', ?_, forall₂_trans ?_ hrechunked htrimmed, hfit'⟩
  · rw [setCtxRequestsChunkSize, hassign]
    exact hdrafts
  intro req mid req' h h'
  refine ⟨h.same.trans h'.same, h.numDraftTokens_eq ▸ h'.numDraftTokens_le, ?_, ?_⟩
  · rw [h'.contextChunkSize_eq, h'.same.contextRemainingLength_eq]
    exact h.whole.le_remaining
  · rw [h'.contextChunkSize_eq, h'.same.contextRemainingLength_eq, h'.same.contextCurrentPosition_eq,
      h'.same.expectSnapshotPoints_eq]
    exact h.whole.boundary

theorem setCtxRequestsChunkSize_forced_error (hm : m ∈ l.maxContextLength) (hsmall : m < l.unitSize) :
    setCtxRequestsChunkSize l fuel .forceChunk reqs = .error (.forcedChunkExceedsMaxContextLength l.unitSize m) := by
  simp only [setCtxRequestsChunkSize, assignChunks, chunkForced, Option.mem_def.1 hm, if_pos hsmall]
  rfl

end TrtLlm.Scheduler
