import TrtLlm.Scheduler.Admission.AdpRouter

/-!
# The cache-aware attention-DP router

Explicit ranks and warm-up ranks come first. The other requests are scored against the ranks below the target, by the
tokens not cached there and by the load; without such a rank the loop stops. Whatever the scores, it assigns as many
requests as there is room below the target: that this is enough is up to `fair_share_multiplier`.
-/

namespace TrtLlm.Scheduler

open List PyFloat

/-- Doubles and `random.Random(seed).shuffle`, as far as they are relied on. -/
structure PyRuntime where
  round : ℚ → PyFloat
  shuffle : ℕ → List ℕ → List ℕ
  round_pos : ∀ k : ℕ, 0 < k → lt (.finite 0) (round k) = true
  shuffle_perm : ∀ seed ranks, (shuffle seed ranks).Perm ranks

/-- The options of the router, the prefix matches it gathered and the ranks still to be warmed up. -/
structure KVCacheAwareADPRouter where
  loadBalanceWeight : PyFloat
  matchRateThreshold : PyFloat
  fairShareMultiplier : PyFloat
  /-- `_match_len`, by rank and request. -/
  matchLen : ℕ → ℕ → ℕ
  pendingWarmupRanks : List ℕ

structure RankTally where
  placement : Placement RequestQueueItem
  tokens : List PyFloat

namespace KVCacheAwareADPRouter

variable (py : PyRuntime) (router : KVCacheAwareADPRouter)

def assign (tally : RankTally) (k : ℕ) (reqItem : RequestQueueItem) : RankTally where
  placement := tally.placement.place k reqItem
  tokens := tally.tokens.modify k fun tokens =>
    add py.round tokens (py.round ((reqItem.numInputTokens - router.matchLen k reqItem.id : ℕ) : ℚ))

/-! ### Explicit ranks and warm-up -/

/-- The explicit rank, or the smallest rank to be warmed up. -/
def targetDpRank (reqItem : RequestQueueItem) : Option ℤ := reqItem.targetDpRank.or (router.pendingWarmupRanks.min?.map (↑·))

def warmed (k : ℕ) : KVCacheAwareADPRouter := { router with pendingWarmupRanks := router.pendingWarmupRanks.filter (· ≠ k) }

/-- The first loop of `route_requests`: the tallies, the router and the requests left for scoring. -/
def assignTargets (maxNumActiveRequests : ℕ) : KVCacheAwareADPRouter → RankTally → List RequestQueueItem →
    Except RouteError (RankTally × KVCacheAwareADPRouter × List RequestQueueItem)
  | router, tally, [] => .ok (tally, router, [])
  | router, tally, reqItem :: requests =>
    match explicitSlot tally.placement.loads maxNumActiveRequests (router.targetDpRank reqItem) with
    | .error e => .error e
    | .ok (some k) =>
      assignTargets maxNumActiveRequests (router.warmed k) (router.assign py tally k reqItem) requests
    | .ok none =>
      match assignTargets maxNumActiveRequests router tally requests with
      | .error e => .error e
      | .ok (tally', router', remaining) => .ok (tally', router', reqItem :: remaining)

/-! ### Scoring -/

def inputTokenIds (reqItem : RequestQueueItem) : List ℕ := (reqItem.request.map (·.inputTokenIds)).getD []

def prefixFingerprint (tokenIds : List ℕ) : List ℕ := tokenIds.take 64

def SortKeyLe (a b : RequestQueueItem) : Prop :=
  prefixFingerprint (inputTokenIds a) < prefixFingerprint (inputTokenIds b) ∨
    prefixFingerprint (inputTokenIds a) = prefixFingerprint (inputTokenIds b) ∧
      (inputTokenIds b).length ≤ (inputTokenIds a).length

instance : DecidableRel SortKeyLe := fun a b =>
  inferInstanceAs (Decidable (prefixFingerprint (inputTokenIds a) < prefixFingerprint (inputTokenIds b) ∨
    prefixFingerprint (inputTokenIds a) = prefixFingerprint (inputTokenIds b) ∧
      (inputTokenIds b).length ≤ (inputTokenIds a).length))

/-- `_score_rank`, `none` for a division by zero. -/
def scoreRank (reqTokens matchLen : ℕ) (rankActiveTokens loadDenom : PyFloat) : Option PyFloat :=
  (div? py.round rankActiveTokens loadDenom).map fun quotient =>
    let normalizedLoad := mul py.round quotient (py.round reqTokens)
    add py.round (py.round ((reqTokens - matchLen : ℤ) : ℚ)) (mul py.round router.loadBalanceWeight normalizedLoad)

variable (tokens : List PyFloat) (eligibleRanks : List ℕ)

def loadDenom (reqTokens : ℕ) : PyFloat :=
  maximum ((eligibleRanks.map fun rank => tokens.getD rank .nan).foldl (add py.round) (.finite 0)) (py.round reqTokens)

variable (reqItem : RequestQueueItem)

def cacheAffinityActive : Bool :=
  let maxMatch := (eligibleRanks.map fun rank => router.matchLen rank reqItem.id).foldl max 0
  lt router.matchRateThreshold (py.round (maxMatch / max reqItem.numInputTokens 1 : ℚ))

/-- One candidate: the best rank so far and its score. -/
def scoreStep (best : ℕ × PyFloat) (rank : ℕ) : Except RouteError (ℕ × PyFloat) :=
  let matchLen := if router.cacheAffinityActive py eligibleRanks reqItem then router.matchLen rank reqItem.id else 0
  match router.scoreRank py reqItem.numInputTokens matchLen (tokens.getD rank .nan)
    (loadDenom py tokens eligibleRanks reqItem.numInputTokens) with
  | none => .error .zeroDivision
  | some score =>
    .ok (if ltPair score (tokens.getD rank .nan) best.2 (tokens.getD best.1 .nan) then (rank, score) else best)

def bestRank : Except RouteError ℕ :=
  match py.shuffle reqItem.id eligibleRanks with
  | [] => .error .listIndexOutOfRange
  | first :: rest =>
    match (first :: rest).foldlM (router.scoreStep py tokens eligibleRanks reqItem) (first, .infinite false) with
    | .error e => .error e
    | .ok best => .ok best.1

def assignByScore (expected : ℕ) : RankTally → List ℕ → List RequestQueueItem → Except RouteError RankTally
  | tally, _, [] => .ok tally
  | tally, eligibleRanks, reqItem :: requests =>
    if eligibleRanks = [] then .ok tally -- `break`
    else
      match router.bestRank py tally.tokens eligibleRanks reqItem with
      | .error e => .error e
      | .ok best =>
        let tally' := router.assign py tally best reqItem
        let eligibleRanks' :=
          if expected ≤ tally'.placement.loads.getD best 0 then eligibleRanks.erase best else eligibleRanks
        assignByScore expected tally' eligibleRanks' requests

def eligible (loads : List ℕ) (expected : ℕ) : List ℕ := (List.range loads.length).filter fun rank => loads.getD rank 0 < expected

def tallyOf (allRankStates : List RankState) : RankTally where
  placement := .start (allRankStates.map (·.numActiveRequests))
  tokens := allRankStates.map fun state => py.round state.numActiveTokens

/-- The new requests of each rank, `expected_num_active_requests`, and the router afterwards. -/
def routeRequests (allRankStates : List RankState) (newRequests : List RequestQueueItem) (maxNumActiveRequests : ℕ) :
    Except RouteError ((List (List RequestQueueItem) × ℕ) × KVCacheAwareADPRouter) :=
  match assignTargets py maxNumActiveRequests router (tallyOf py allRankStates)
    (sortByRelax (·.relaxValue) newRequests) with
  | .error e => .error e
  | .ok (tally, router', remaining) =>
    match expectedNumActiveRequests py.round tally.placement.loads remaining.length router.fairShareMultiplier
      (some maxNumActiveRequests) with
    | .error e => .error e
    | .ok expected =>
      match router'.assignByScore py expected tally (eligible tally.placement.loads expected)
        (remaining.insertionSort SortKeyLe) with
      | .error e => .error e
      | .ok tally' => .ok ((tally'.placement.assigned, expected), router')

variable {py router} {loads : List ℕ} {items reqs : List RequestQueueItem} {want cap : ℕ} {tally : RankTally}

variable {eligibleRanks : List ℕ} {reqItem : RequestQueueItem}

theorem scoreStep_isOk {tokens : List PyFloat} (htokens : 0 < reqItem.numInputTokens) (best : ℕ × PyFloat) (rank : ℕ) :
    ∃ score, router.scoreStep py tokens eligibleRanks reqItem best rank = .ok (rank, score) ∨
      router.scoreStep py tokens eligibleRanks reqItem best rank = .ok best := by
  have hdenom : loadDenom py tokens eligibleRanks reqItem.numInputTokens ≠ .finite 0 := maximum_ne_zero (py.round_pos _ htokens)
  simp only [scoreStep]
  generalize (if router.cacheAffinityActive py eligibleRanks reqItem then router.matchLen rank reqItem.id else 0) = len
  obtain ⟨score, hscore⟩ : ∃ score, router.scoreRank py reqItem.numInputTokens len (tokens.getD rank .nan)
      (loadDenom py tokens eligibleRanks reqItem.numInputTokens) = some score := by
    simp [scoreRank, div?, hdenom]
  rw [hscore]
  refine ⟨score, ?_⟩
  dsimp only
  split
  · exact .inl rfl
  · exact .inr rfl

variable (py) (router)

theorem foldlM_scoreStep (eligibleRanks : List ℕ) (htokens : 0 < reqItem.numInputTokens) (ranks : List ℕ)
    (best : ℕ × PyFloat) :
    ∃ best', ranks.foldlM (router.scoreStep py tokens eligibleRanks reqItem) best = .ok best' ∧
      (best'.1 = best.1 ∨ best'.1 ∈ ranks) := by
  induction ranks generalizing best with
  | nil => exact ⟨best, rfl, .inl rfl⟩
  | cons rank ranks ih =>
    rw [foldlM_cons]
    obtain ⟨score, hstep | hstep⟩ := scoreStep_isOk htokens best rank
    · obtain ⟨best', hrun, hbest⟩ := ih (rank, score)
      refine ⟨best', by rw [hstep]; exact hrun, .inr ?_⟩
      rcases hbest with heq | hmem
      · rw [heq]
        exact (.head _)
      · exact .tail _ hmem
    · obtain ⟨best', hrun, hbest⟩ := ih best
      exact ⟨best', by rw [hstep]; exact hrun, hbest.imp_right (mem_cons_of_mem _)⟩

theorem bestRank_spec (htokens : 0 < reqItem.numInputTokens) (hsome : eligibleRanks ≠ []) :
    ∃ k ∈ eligibleRanks, router.bestRank py tokens eligibleRanks reqItem = .ok k := by
  have hperm := py.shuffle_perm reqItem.id eligibleRanks
  unfold bestRank
  cases hshuffle : py.shuffle reqItem.id eligibleRanks with
  | nil =>
    rw [hshuffle] at hperm
    exact absurd hperm.symm.eq_nil hsome
  | cons first rest =>
    rw [hshuffle] at hperm
    obtain ⟨best, hrun, hbest⟩ := foldlM_scoreStep py router tokens eligibleRanks htokens (first :: rest) (first, .infinite false)
    refine ⟨best.1, ?_, by simp only [hrun]⟩
    rcases hbest with heq | hmem
    · rw [heq]
      exact hperm.subset (.head _)
    · exact hperm.subset hmem

/-! ### How many are assigned -/

structure Eligible (expected : ℕ) (loads : List ℕ) (eligibleRanks : List ℕ) : Prop where
  mem_iff : ∀ k, k ∈ eligibleRanks ↔ k < loads.length ∧ loads.getD k 0 < expected
  nodup : eligibleRanks.Nodup

theorem eligible_spec (loads : List ℕ) (want : ℕ) : Eligible want loads (eligible loads want) where
  mem_iff := by
    simp [eligible]
  nodup := nodup_range.filter _

theorem Eligible.next (h : Eligible want loads eligibleRanks) {k : ℕ} (hk : k ∈ eligibleRanks) :
    Eligible want (bump loads k) (if want ≤ (bump loads k).getD k 0 then eligibleRanks.erase k else eligibleRanks) := by
  obtain ⟨hlt, hbelow⟩ := (h.mem_iff k).1 hk
  constructor
  · intro j
    rw [length_bump]
    by_cases hkj : k = j
    · subst hkj
      split
      · exact iff_of_false (h.nodup.not_mem_erase) fun hbelow' => absurd hbelow'.2 (by omega)
      · exact iff_of_true hk ⟨hlt, by omega⟩
    · have hother : (bump loads k).getD j 0 = loads.getD j 0 := by rw [getD_bump hlt, if_neg hkj]
      rw [hother, ← h.mem_iff j]
      split
      · exact mem_erase_of_ne (.symm hkj)
      · rfl
  · split
    · exact h.nodup.erase k
    · exact h.nodup

theorem holds_assign (hholds : Placement.Holds loads items tally.placement) {k : ℕ}
    (hk : k < tally.placement.loads.length) (reqItem : RequestQueueItem) :
    Placement.Holds loads (items ++ [reqItem]) (router.assign py tally k reqItem).placement :=
  hholds.place (hk.trans_eq hholds.length_loads) reqItem

/-- The loop assigns the first requests, as many as there is room below the target. -/
theorem assignByScore_spec (reqs : List RequestQueueItem) (hholds : Placement.Holds loads items tally.placement)
    (heligible : Eligible want tally.placement.loads eligibleRanks)
    (htokens : ∀ item ∈ reqs, 0 < item.numInputTokens) :
    ∃ tally', router.assignByScore py want tally eligibleRanks reqs = .ok tally' ∧
      Placement.Holds loads (items ++ reqs.take (room want tally.placement.loads)) tally'.placement ∧
      ∀ k, tally'.placement.loads.getD k 0 ≤ max want (tally.placement.loads.getD k 0) := by
  induction reqs generalizing tally eligibleRanks items with
  | nil => exact ⟨tally, rfl, by simpa using hholds, fun k => le_max_right _ _⟩
  | cons reqItem reqs ih =>
    unfold assignByScore
    by_cases hnone : eligibleRanks = []
    · have hroom : room want tally.placement.loads = 0 := by
        by_contra hpos
        obtain ⟨k, hk, hlt⟩ := room_pos_iff.1 (pos_of_ne_zero hpos)
        have hmem := (heligible.mem_iff k).2 ⟨hk, hlt⟩
        simp [hnone] at hmem
      rw [if_pos hnone, hroom]
      exact ⟨tally, rfl, by simpa using hholds, fun k => le_max_right _ _⟩
    · obtain ⟨k, hk, hbest⟩ := bestRank_spec py router tally.tokens (htokens reqItem (.head _)) hnone
      obtain ⟨hlt, hbelow⟩ := (heligible.mem_iff k).1 hk
      have hroom := room_bump hlt hbelow
      rw [if_neg hnone, hbest]
      obtain ⟨tally', hrun, hholds', hle⟩ := ih (holds_assign py router hholds hlt reqItem) (heligible.next hk)
        (forall_mem_cons.1 htokens).2
      refine ⟨tally', hrun, ?_, fun j => (hle j).trans_eq (max_getD_bump hlt hbelow)⟩
      rw [← hroom]
      simpa [assign, Placement.place] using hholds'

/-! ### Explicit ranks that raise nothing -/

variable {router}

/-- No request names a bad explicit rank in its turn of the first loop. -/
def GoodTargets (py : PyRuntime) (maxNumActiveRequests : ℕ) :
    KVCacheAwareADPRouter → RankTally → List RequestQueueItem → Prop
  | _, _, [] => True
  | router, tally, reqItem :: requests =>
    ¬ BadTarget tally.placement.loads maxNumActiveRequests reqItem.targetDpRank ∧
      match explicitSlot tally.placement.loads maxNumActiveRequests (router.targetDpRank reqItem) with
      | .ok (some k) => GoodTargets py maxNumActiveRequests (router.warmed k) (router.assign py tally k reqItem) requests
      | _ => GoodTargets py maxNumActiveRequests router tally requests

theorem badTarget_targetDpRank_iff (cap : ℕ)
    (hpending : ∀ rank ∈ router.pendingWarmupRanks, rank < loads.length) (reqItem : RequestQueueItem) :
    BadTarget loads cap (router.targetDpRank reqItem) ↔ BadTarget loads cap reqItem.targetDpRank := by
  unfold targetDpRank
  cases htarget : reqItem.targetDpRank with
  | some rank => rfl
  | none =>
    refine iff_of_false ?_ (by simp [BadTarget])
    cases hmin : router.pendingWarmupRanks.min? with
    | none => simp [BadTarget]
    | some k =>
      have hk := hpending k (min?_mem hmin)
      change ¬ BadTarget loads cap (some (k : ℤ))
      rw [badTarget_some_iff (pyIndex_natCast hk)]
      omega

theorem assignTargets_isOk_iff (cap : ℕ) (reqs : List RequestQueueItem)
    (hholds : Placement.Holds loads items tally.placement)
    (hpending : ∀ rank ∈ router.pendingWarmupRanks, rank < loads.length) :
    (∃ result, assignTargets py cap router tally reqs = .ok result) ↔ GoodTargets py cap router tally reqs := by
  induction reqs generalizing tally router items with
  | nil => exact iff_of_true ⟨_, rfl⟩ trivial
  | cons reqItem reqs ih =>
    have hpending' : ∀ rank ∈ router.pendingWarmupRanks, rank < tally.placement.loads.length := by
      rw [hholds.length_loads]
      exact hpending
    have hbad := badTarget_targetDpRank_iff cap hpending' reqItem
    unfold assignTargets GoodTargets
    rw [← hbad, ← explicitSlot_isOk_iff]
    cases hslot : explicitSlot tally.placement.loads cap (router.targetDpRank reqItem) with
    | error e => simp
    | ok slot =>
      have hok : ∃ slot', (.ok slot : Except RouteError _) = .ok slot' := ⟨slot, rfl⟩
      rw [and_iff_right hok]
      cases slot with
      | none =>
        rw [← ih hholds hpending]
        cases assignTargets py cap router tally reqs with
        | error e => simp
        | ok result => exact iff_of_true ⟨_, rfl⟩ ⟨_, rfl⟩
      | some k =>
        obtain ⟨-, hk, -⟩ := explicitSlot_spec hslot
        refine ih (holds_assign py router hholds hk reqItem) ?_
        exact fun rank hrank => hpending rank (mem_of_mem_filter hrank)

variable {router' : KVCacheAwareADPRouter} {remaining newRequests : List RequestQueueItem} {states : List RankState} {py}

theorem assignTargets_spec (hholds : Placement.Holds loads items tally.placement) {tally' : RankTally}
    (h : assignTargets py cap router tally reqs = .ok (tally', router', remaining)) :
    ∃ placed, (placed ++ remaining).Perm reqs ∧ Placement.Holds loads (items ++ placed) tally'.placement ∧
      ∀ k, tally'.placement.loads.getD k 0 ≤ max cap (tally.placement.loads.getD k 0) := by
  induction reqs generalizing tally router items tally' router' remaining with
  | nil =>
    obtain ⟨rfl, -, rfl⟩ := h
    exact ⟨[], .refl _, by simpa using hholds, fun k => le_max_right _ _⟩
  | cons reqItem reqs ih =>
    unfold assignTargets at h
    cases hslot : explicitSlot tally.placement.loads cap (router.targetDpRank reqItem) with
    | error e => simp [hslot] at h
    | ok slot =>
      rw [hslot] at h
      cases slot with
      | none =>
        cases hrest : assignTargets py cap router tally reqs with
        | error e => simp [hrest] at h
        | ok result =>
          simp only [hrest] at h
          obtain ⟨rfl, rfl, rfl⟩ := h
          obtain ⟨placed, hperm, hholds', hle⟩ := ih hholds hrest
          exact ⟨placed, perm_middle.trans (hperm.cons reqItem), hholds', hle⟩
      | some k =>
        obtain ⟨-, hk, hlt⟩ := explicitSlot_spec hslot
        obtain ⟨placed, hperm, hholds', hle⟩ := ih (holds_assign py router hholds hk reqItem) h
        exact ⟨reqItem :: placed, hperm.cons reqItem, by simpa using hholds', fun j =>
          (hle j).trans_eq (max_getD_bump hk hlt)⟩

/-! ### When no request is lost -/

variable (py router) in
/-- The explicit ranks raise nothing, the target is a number, and below it there is room for the requests that are
left to scoring. -/
def LeavesRoom (allRankStates : List RankState) (newRequests : List RequestQueueItem) (maxNumActiveRequests : ℕ) :
    Prop :=
  GoodTargets py maxNumActiveRequests router (tallyOf py allRankStates) (sortByRelax (·.relaxValue) newRequests) ∧
    ∀ tally router' remaining,
      assignTargets py maxNumActiveRequests router (tallyOf py allRankStates) (sortByRelax (·.relaxValue) newRequests) =
        .ok (tally, router', remaining) →
      ∃ expected, expectedNumActiveRequests py.round tally.placement.loads remaining.length
          router.fairShareMultiplier (some maxNumActiveRequests) = .ok expected ∧
        remaining.length ≤ room expected tally.placement.loads

theorem holds_tallyOf (py : PyRuntime) :
    Placement.Holds (states.map (·.numActiveRequests)) [] (tallyOf py states).placement := .start _

/-- What a call does once the explicit ranks raised nothing and the target is known. -/
theorem routeRequests_of_targets (hrequests : ∀ item ∈ reqs, item.request.isSome)
    (htargets : assignTargets py cap router (tallyOf py states)
      (sortByRelax (·.relaxValue) reqs) = .ok (tally, router', remaining))
    (hexpected : expectedNumActiveRequests py.round tally.placement.loads remaining.length router.fairShareMultiplier
      (some cap) = .ok want) :
    ∃ p placed, router.routeRequests py states reqs cap =
        .ok ((p.assigned, want), router') ∧
      placed.length + remaining.length = reqs.length ∧
      (placed ++ remaining).Perm reqs ∧
      Placement.Holds (states.map (·.numActiveRequests))
        (placed ++ (remaining.insertionSort SortKeyLe).take (room want tally.placement.loads)) p ∧
      ∀ k, p.loads.getD k 0 ≤ max cap ((states.map (·.numActiveRequests)).getD k 0) := by
  obtain ⟨placed, hperm, hholds, hle⟩ := assignTargets_spec (holds_tallyOf py) htargets
  have hperm' := hperm.trans (sortByRelax_perm _ reqs)
  have hsort := perm_insertionSort SortKeyLe remaining
  obtain ⟨tally', hrun, hholds', hle'⟩ := assignByScore_spec py router'
    (remaining.insertionSort SortKeyLe) hholds (eligible_spec tally.placement.loads want) (by
      intro item hitem
      refine RequestQueueItem.numInputTokens_pos (hrequests item (hperm'.subset ?_))
      exact mem_append_right _ (hsort.subset hitem))
  refine ⟨tally'.placement, placed, ?_, ?_, hperm', hholds', ?_⟩
  · simp only [routeRequests, htargets, hexpected, hrun]
  · rw [← length_append, hperm'.length_eq]
  intro k
  have hcap : want ≤ cap := by
    unfold expectedNumActiveRequests at hexpected
    split at hexpected
    · simp at hexpected
    · split at hexpected
      · simp at hexpected
      · simp only [Option.elim, Except.ok.injEq] at hexpected
        omega
  have hfirst := hle k
  have hsecond := hle' k
  simp only [tallyOf, Placement.start] at hfirst
  omega

theorem goodTargets_of_valid (h : Placement.Holds loads items tally.placement)
    (hvalid : ∀ item ∈ reqs, ∀ rank ∈ item.targetDpRank, 0 ≤ rank ∧ rank < loads.length) :
    GoodTargets py cap router tally reqs := by
  induction reqs generalizing tally router items with
  | nil => trivial
  | cons reqItem reqs ih =>
    obtain ⟨hhead, hrest⟩ := forall_mem_cons.1 hvalid
    refine ⟨not_badTarget_of_valid ?_, ?_⟩
    · rw [h.length_loads]
      exact hhead
    split
    · rename_i k hslot
      obtain ⟨-, hk, -⟩ := explicitSlot_spec hslot
      exact ih (holds_assign py router h hk reqItem) hrest
    · exact ih h hrest

theorem leavesRoom_of_one_le {m : ℚ} (hm : router.fairShareMultiplier = .finite m) (hranks : states ≠ [])
    (hround : ∀ k ≤ cap, py.round k = .finite k ∧ ∃ y : ℚ, py.round (m * k) = .finite y ∧ k ≤ y)
    (hvalid : ∀ item ∈ reqs, ∀ rank ∈ item.targetDpRank, 0 ≤ rank ∧ rank < states.length)
    (hbudget : (states.map (·.numActiveRequests)).sum + reqs.length ≤ states.length * cap) :
    router.LeavesRoom py states reqs cap := by
  refine ⟨goodTargets_of_valid (holds_tallyOf py) ?_, ?_⟩
  · intro item hitem
    simpa using hvalid item ((sortByRelax_perm _ reqs).subset hitem)
  intro tally router' remaining htargets
  obtain ⟨placed, hperm, hholds, -⟩ := assignTargets_spec (holds_tallyOf py) htargets
  have hlength := (hperm.trans (sortByRelax_perm _ reqs)).length_eq
  have hsum := hholds.sum_loads
  have hranks' := hholds.length_loads
  rw [length_map] at hranks'
  simp only [nil_append, length_append] at hsum hlength
  have hsome : tally.placement.loads ≠ [] := by
    rw [← length_pos_iff, hranks', length_pos_iff]
    exact hranks
  have hshare : fairShare tally.placement.loads remaining.length ≤ cap := fairShare_le hsome (by rw [hranks']; omega)
  obtain ⟨hexact, y, hproduct, hle⟩ := hround _ hshare
  have hexpected : expectedNumActiveRequests py.round tally.placement.loads remaining.length
      router.fairShareMultiplier (some cap) =
      .ok (min (max ⌈y⌉ (busiest tally.placement.loads)).toNat cap) := by
    simp only [expectedNumActiveRequests, hm, ceilProduct, mul, hexact, hproduct]
    exact if_neg (by simpa using hsome)
  refine ⟨_, hexpected, le_room_of_fairShare_le hsome ?_⟩
  have hceil : (fairShare tally.placement.loads remaining.length : ℤ) ≤ ⌈y⌉ := by
    exact_mod_cast hle.trans (Int.le_ceil y)
  omega

/-- Every request is assigned exactly once, and no rank rises above the cap, if and only if there is room. -/
theorem routeRequests_complete_iff (py : PyRuntime) (router : KVCacheAwareADPRouter) (allRankStates : List RankState)
    (newRequests : List RequestQueueItem) (maxNumActiveRequests : ℕ)
    (hrequests : ∀ item ∈ newRequests, item.request.isSome)
    (hpending : ∀ rank ∈ router.pendingWarmupRanks, rank < allRankStates.length) :
    (∃ allRanksNewRequests expected router',
      router.routeRequests py allRankStates newRequests maxNumActiveRequests =
          .ok ((allRanksNewRequests, expected), router') ∧
        allRanksNewRequests.length = allRankStates.length ∧ allRanksNewRequests.flatten.Perm newRequests ∧
        ∀ k < allRankStates.length,
          (allRankStates.map (·.numActiveRequests)).getD k 0 + (allRanksNewRequests.getD k []).length ≤
            max maxNumActiveRequests ((allRankStates.map (·.numActiveRequests)).getD k 0)) ↔
      router.LeavesRoom py allRankStates newRequests maxNumActiveRequests := by
  have hgood := assignTargets_isOk_iff py maxNumActiveRequests
    (sortByRelax (·.relaxValue) newRequests) (holds_tallyOf py) (by simpa using hpending)
  unfold LeavesRoom
  rw [← hgood]
  constructor
  · rintro ⟨allRanksNewRequests, expected, router', hroute, -, hall, -⟩
    have hroute' := hroute
    unfold routeRequests at hroute'
    split at hroute'
    · simp at hroute'
    rename_i tally router₁ remaining htargets
    refine ⟨⟨_, htargets⟩, ?_⟩
    rintro tally₁ router₂ remaining₁ htargets₁
    obtain ⟨rfl, rfl, rfl⟩ : tally = tally₁ ∧ router₁ = router₂ ∧ remaining = remaining₁ := by
      simpa [htargets] using htargets₁
    split at hroute'
    · simp at hroute'
    rename_i expected₁ hexpected
    obtain ⟨p, placed, hroute₁, hlength, -, hholds, -⟩ := routeRequests_of_targets hrequests htargets hexpected
    rw [hroute] at hroute₁
    obtain ⟨⟨rfl, rfl⟩, -⟩ := hroute₁
    refine ⟨_, hexpected, ?_⟩
    have hcount := (hholds.perm.symm.trans hall).length_eq
    rw [length_append, length_take] at hcount
    omega
  · rintro ⟨⟨⟨tally, router', remaining⟩, htargets⟩, hroom⟩
    obtain ⟨expected, hexpected, hle⟩ := hroom tally router' remaining htargets
    obtain ⟨p, placed, hroute, -, hperm, hholds, hcap⟩ := routeRequests_of_targets hrequests htargets hexpected
    have hsort := perm_insertionSort SortKeyLe remaining
    rw [take_of_length_le (hsort.length_eq.trans_le hle)] at hholds
    refine ⟨p.assigned, expected, router', hroute, by simpa using hholds.length_assigned,
      hholds.perm.trans ((hsort.append_left placed).trans hperm), ?_⟩
    intro k hk
    rw [← hholds.load k (by simpa using hk)]
    exact hcap k

/-- Exact arithmetic and a shuffle that leaves the order: on a single rank every shuffle does. -/
def exactRuntime : PyRuntime where
  round := .finite
  shuffle := fun _ ranks => ranks
  round_pos := by
    intro k hk
    simpa [lt] using hk
  shuffle_perm := fun _ ranks => List.Perm.refl ranks

def coldRouter (multiplier : ℚ) : KVCacheAwareADPRouter := ⟨.finite 1, .finite (1 / 10), .finite multiplier, fun _ _ =>
    0, []⟩

theorem routeRequests_complete_double_share :
    ∃ allRanksNewRequests expected router',
      (coldRouter 2).routeRequests exactRuntime [⟨0, 0⟩] [.anyRank 1, .anyRank 2] 4 =
          .ok ((allRanksNewRequests, expected), router') ∧
        allRanksNewRequests.length = 1 ∧ allRanksNewRequests.flatten.Perm [.anyRank 1, .anyRank 2] ∧
        ∀ k < 1, [0].getD k 0 + (allRanksNewRequests.getD k []).length ≤ max 4 ([0].getD k 0) := by
  refine (routeRequests_complete_iff exactRuntime (coldRouter 2) [⟨0, 0⟩] [.anyRank 1, .anyRank 2] 4 (by decide)
    (by decide)).2 (leavesRoom_of_one_le rfl (by decide) ?_ (by decide) (by decide))
  intro k _
  refine ⟨rfl, 2 * k, rfl, ?_⟩
  exact_mod_cast Nat.le_mul_of_pos_left k two_pos

/-- Half the fair share of two requests is one: the second request is assigned to no rank. -/
theorem routeRequests_half_share_loses_request :
    ((coldRouter (1 / 2)).routeRequests exactRuntime [⟨0, 0⟩] [.anyRank 1, .anyRank 2] 4).map (·.1) =
      .ok ([[.anyRank 1]], 1) := by
  decide +kernel

end KVCacheAwareADPRouter

end TrtLlm.Scheduler
