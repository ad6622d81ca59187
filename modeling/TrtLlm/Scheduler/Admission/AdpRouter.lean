import Mathlib
import TrtLlm.Lib.Loads
import TrtLlm.Lib.PyFloat
import TrtLlm.Scheduler.Admission.WaitingQueue

/-!
# What the attention-DP routers share

A router assigns new requests to the ranks of an attention-DP group (`adp_router.py`). The rank states come from an
allgather, so the state at position `k` is that of rank `k`, and the answer holds a list for each rank. Explicit ranks
come first; a target that scales the fair share bounds the rest.
-/

namespace TrtLlm.Scheduler

structure RankState where
  numActiveRequests : ℕ
  numActiveTokens : ℕ
  deriving DecidableEq, Repr

inductive RouteError where
  | listIndexOutOfRange
  | keyError (key : ℤ)
  | popFromEmptyHeap
  | zeroDivision
  | infinityToInteger
  | nanToInteger
  deriving DecidableEq, Repr

namespace RequestQueueItem

variable (item : RequestQueueItem)

def targetDpRank : Option ℤ := item.schedulingParams.bind (·.attentionDpRank)

/-- `get_relax_value` of the default and of the cache-aware router. -/
def relaxValue : Bool :=
  match item.schedulingParams with
  | none => true
  | some params => params.attentionDpRank.isNone || params.attentionDpRelax

def numInputTokens : ℕ :=
  match item.request with
  | none => 0
  | some request => request.inputTokenIds.length

variable {item}

theorem numInputTokens_pos (hrequest : item.request.isSome) : 0 < item.numInputTokens := by
  unfold numInputTokens
  cases hsome : item.request with
  | none => simp [hsome] at hrequest
  | some request => exact List.length_pos_iff.2 request.inputTokenIds_ne_nil

theorem relaxValue_eq_false_iff : item.relaxValue = false ↔ ∃ rank, item.strictRank = some rank := by
  unfold relaxValue strictRank
  cases hparams : item.schedulingParams with
  | none => simp
  | some params =>
    obtain ⟨rank, relax⟩ := params
    cases rank <;> cases relax <;> simp

theorem targetDpRank_of_strictRank {rank : ℤ} (h : item.strictRank = some rank) : item.targetDpRank = some rank := by
  unfold strictRank at h
  unfold targetDpRank
  cases hparams : item.schedulingParams with
  | none => simp [hparams] at h
  | some params =>
    obtain ⟨target, relax⟩ := params
    cases relax <;> simp_all

end RequestQueueItem

/-- `sorted(new_requests, key=…)` for a key that is a `bool`: the sort is stable and `False` comes first. -/
def sortByRelax (relax : RequestQueueItem → Bool) (requests : List RequestQueueItem) : List RequestQueueItem :=
  requests.filter (fun item => relax item = false) ++ requests.filter fun item => ¬ relax item = false

theorem sortByRelax_perm (relax : RequestQueueItem → Bool) (requests : List RequestQueueItem) :
    (sortByRelax relax requests).Perm requests := by
  have hperm := List.filter_append_perm (fun item => decide (relax item = false)) requests
  simpa [sortByRelax] using hperm

theorem getD_numActiveRequests_le {states : List RankState} {cap : ℕ}
    (hloads : ∀ state ∈ states, state.numActiveRequests ≤ cap) (k : ℕ) :
    (states.map (·.numActiveRequests)).getD k 0 ≤ cap := by
  by_cases hk : k < states.length
  · simpa [hk] using hloads _ (List.getElem_mem hk)
  · simp [hk]

/-- The rank of an explicit target, `none` without a target or if its rank is full. The load is looked up as in a list,
the list of new requests by the rank as a key. -/
def explicitSlot (loads : List ℕ) (maxNumActiveRequests : ℕ) : Option ℤ → Except RouteError (Option ℕ)
  | none => .ok none
  | some target =>
    match pyIndex loads.length target with
    | none => .error .listIndexOutOfRange
    | some k =>
      if loads.getD k 0 < maxNumActiveRequests then
        if 0 ≤ target then .ok (some k) else .error (.keyError target)
      else .ok none

variable {loads : List ℕ} {cap k : ℕ} {target : Option ℤ}

theorem explicitSlot_spec (h : explicitSlot loads cap target = .ok (some k)) :
    target = some (k : ℤ) ∧ k < loads.length ∧ loads.getD k 0 < cap := by
  cases target with
  | none => simp [explicitSlot] at h
  | some target =>
    unfold explicitSlot at h
    cases hk : pyIndex loads.length target with
    | none => simp [hk] at h
    | some j =>
      simp only [hk] at h
      split at h
      · split at h
        · rename_i hpos
          obtain rfl : j = k := by simpa using h
          simp only [pyIndex, hpos, if_true] at hk
          split at hk
          · simp only [Option.some.injEq] at hk ⊢
            omega
          · simp at hk
        · simp at h
      · simp at h

/-- An explicit target that makes the placement raise: it is no index of the loads, or it counts from their end and
finds room there, but is no key of the new requests. -/
def BadTarget (loads : List ℕ) (maxNumActiveRequests : ℕ) (target : Option ℤ) : Prop :=
  ∃ rank ∈ target, pyIndex loads.length rank = none ∨
    rank < 0 ∧ ∃ k ∈ pyIndex loads.length rank, loads.getD k 0 < maxNumActiveRequests

theorem badTarget_some_iff {target : ℤ} (hk : pyIndex loads.length target = some k) :
    BadTarget loads cap (some target) ↔ target < 0 ∧ loads.getD k 0 < cap := by
  constructor
  · rintro ⟨rank, hrank, hbad⟩
    obtain rfl : target = rank := by simpa using hrank
    rcases hbad with hnone | ⟨hneg, j, hj, hlt⟩
    · simp [hk] at hnone
    · obtain rfl : k = j := by simpa [hk] using hj
      exact ⟨hneg, hlt⟩
  · rintro ⟨hneg, hlt⟩
    exact ⟨target, rfl, .inr ⟨hneg, k, hk, hlt⟩⟩

theorem explicitSlot_isOk_iff : (∃ slot, explicitSlot loads cap target = .ok slot) ↔ ¬ BadTarget loads cap target := by
  cases target with
  | none => simp [explicitSlot, BadTarget]
  | some target =>
    cases hk : pyIndex loads.length target with
    | none => simp [explicitSlot, BadTarget, hk]
    | some k =>
      rw [badTarget_some_iff hk]
      simp only [explicitSlot, hk]
      by_cases hlt : loads.getD k 0 < cap
      · by_cases hpos : 0 ≤ target
        · exact iff_of_true ⟨some k, by rw [if_pos hlt, if_pos hpos]⟩ fun hbad => absurd hbad.1 (by omega)
        · exact iff_of_false (by rw [if_pos hlt, if_neg hpos]; simp) fun hgood => hgood ⟨by omega, hlt⟩
      · exact iff_of_true ⟨none, by rw [if_neg hlt]⟩ fun hbad => hlt hbad.2

theorem not_badTarget_of_valid (hvalid : ∀ rank ∈ target, 0 ≤ rank ∧ rank < loads.length) :
    ¬ BadTarget loads cap target := by
  rintro ⟨rank, hrank, hnone | ⟨hneg, -⟩⟩
  · have hrange := hvalid rank hrank
    have hsome := pyIndex_isSome_iff.2 ⟨by omega, hrange.2⟩
    simp [hnone] at hsome
  · have hrange := hvalid rank hrank
    omega

/-- `_assign_explicit_dp_ranks`: the placement, and the requests left for balancing. -/
def assignExplicitDpRanks (maxNumActiveRequests : ℕ) : Placement RequestQueueItem → List RequestQueueItem →
    Except RouteError (Placement RequestQueueItem × List RequestQueueItem)
  | p, [] => .ok (p, [])
  | p, reqItem :: requests =>
    match explicitSlot p.loads maxNumActiveRequests reqItem.targetDpRank with
    | .error e => .error e
    | .ok (some k) => assignExplicitDpRanks maxNumActiveRequests (p.place k reqItem) requests
    | .ok none =>
      match assignExplicitDpRanks maxNumActiveRequests p requests with
      | .error e => .error e
      | .ok (p', remaining) => .ok (p', reqItem :: remaining)

section Expected

variable (round : ℚ → PyFloat)

/-- `math.ceil(multiplier * fair_share)`, where `round` gives the double nearest to a number. -/
def ceilProduct (multiplier : PyFloat) (fairShare : ℕ) : Except RouteError ℤ :=
  match PyFloat.mul round multiplier (round fairShare) with
  | .finite product => .ok ⌈product⌉
  | .infinite _ => .error .infinityToInteger
  | .nan => .error .nanToInteger

def fairShare (loads : List ℕ) (numNewRequests : ℕ) : ℕ := (loads.sum + numNewRequests + loads.length - 1) / loads.length

def busiest (loads : List ℕ) : ℕ := loads.foldr max 0

/-- `_expected_num_active_requests`, with one load for each of the `tp_size` ranks. -/
def expectedNumActiveRequests (loads : List ℕ) (numNewRequests : ℕ) (multiplier : PyFloat) (hardCap : Option ℕ) :
    Except RouteError ℕ :=
  if loads.length = 0 then .error .zeroDivision
  else
    match ceilProduct round multiplier (fairShare loads numNewRequests) with
    | .error e => .error e
    | .ok scaled =>
      let expected := (max scaled (busiest loads)).toNat
      .ok (hardCap.elim expected (min expected))

variable {loads : List ℕ} {numNew cap : ℕ}

theorem le_busiest (k : ℕ) : loads.getD k 0 ≤ busiest loads := by
  induction loads generalizing k with
  | nil => simp
  | cons load loads ih =>
    cases k with
    | zero => exact le_max_left _ _
    | succ k => exact (ih k).trans (le_max_right _ _)

theorem fairShare_le (hranks : loads ≠ []) (hbudget : loads.sum + numNew ≤ loads.length * cap) :
    fairShare loads numNew ≤ cap := by
  have hpos : 0 < loads.length := List.length_pos_iff.2 hranks
  refine Nat.lt_succ_iff.1 ((Nat.div_lt_iff_lt_mul hpos).2 ?_)
  rw [Nat.succ_mul, mul_comm cap]
  omega

variable {round}

theorem ceilProduct_one {k : ℕ} (hround : round k = .finite k) : ceilProduct round (.finite 1) k = .ok k := by
  simp [ceilProduct, PyFloat.mul, hround]

theorem le_room_of_fairShare_le {want : ℕ} (hranks : loads ≠ []) (hle : fairShare loads numNew ≤ want) :
    numNew ≤ room want loads := by
  have hpos : 0 < loads.length := List.length_pos_iff.2 hranks
  have hdiv := Nat.lt_mul_div_succ (loads.sum + numNew + loads.length - 1) hpos
  rw [mul_add] at hdiv
  unfold fairShare at hle
  have hmul := Nat.mul_le_mul_left loads.length hle
  have hroom := le_room want loads
  omega

end Expected

end TrtLlm.Scheduler
