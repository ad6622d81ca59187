import TrtLlm.Scheduler.Admission.AdpRouter

/-!
# The conversation-aware attention-DP router

The router remembers the rank of each conversation and sends later requests back to it while the rank is below
`max_num_active_requests`. Other requests are spread under a soft cap, by round-robin or to the least loaded rank. The
soft cap may exceed `max_num_active_requests`, so round-robin may pick a full rank.
-/

namespace TrtLlm.Scheduler

open List Option

inductive NewConvPlacement where
  | roundRobin
  | leastQueued
  deriving DecidableEq, Repr

structure ConversationAwareADPRouter where
  /-- `_conv_to_rank`, the least recently used conversation first. -/
  convToRank : List (String × ℕ)
  maxSessions : ℕ
  fairShareMultiplier : PyFloat
  newConvPlacement : NewConvPlacement
  roundRobinCursor : ℕ

/-- One placement: the request, its rank, and as of just before, the rank recorded for its conversation and the
loads. -/
structure Decision where
  item : RequestQueueItem
  rank : ℕ
  recorded : Option ℕ
  loads : List ℕ

structure ConvRouting where
  placement : Placement RequestQueueItem
  router : ConversationAwareADPRouter
  decisions : List Decision

def RequestQueueItem.conversationId (item : RequestQueueItem) : Option String := item.request.bind (·.conversationId)

namespace ConversationAwareADPRouter

variable (router : ConversationAwareADPRouter)

def create (maxSessions : ℕ) (fairShareMultiplier : PyFloat) (newConvPlacement : NewConvPlacement) :
    ConversationAwareADPRouter where
  convToRank := []
  maxSessions := max 1 maxSessions
  fairShareMultiplier := PyFloat.maximum (.finite 1) fairShareMultiplier
  newConvPlacement := newConvPlacement
  roundRobinCursor := 0

variable (reqItem : RequestQueueItem)

def recordedRank : Option ℕ := reqItem.conversationId.bind fun convId => (router.convToRank.find? (·.1 = convId)).map (·.2)

/-- `_record_target_rank`: the conversation moves to the end, the oldest ones are dropped. -/
def recordTargetRank (convId : String) (rank : ℕ) : ConversationAwareADPRouter :=
  let entries := router.convToRank.filter (·.1 ≠ convId) ++ [(convId, rank)]
  { router with convToRank := entries.drop (entries.length - router.maxSessions) }

def record (rank : ℕ) : ConversationAwareADPRouter :=
  match reqItem.conversationId with
  | none => router
  | some convId => router.recordTargetRank convId rank

/-- `get_relax_value` of this router, which does not ask for a rank. -/
def relaxValue : Bool :=
  match reqItem.schedulingParams with
  | none => true
  | some params => params.attentionDpRelax

end ConversationAwareADPRouter

/-- `_least_loaded`: the first rank with the smallest load, among those below the soft cap if there are any. -/
def leastLoaded (loads : List ℕ) (softCap : ℕ) : ℕ :=
  let below := (List.range loads.length).filter fun rank => loads.getD rank 0 < softCap
  match if below = [] then List.range loads.length else below with
  | [] => 0 -- there is at least one rank
  | first :: rest => rest.foldl (fun best rank => if loads.getD rank 0 < loads.getD best 0 then rank else best) first

/-- `_next_rr`, with the number of ranks still to try: the rank and the cursor. -/
def nextRr (loads : List ℕ) (softCap : ℕ) : ℕ → ℕ → ℕ × ℕ
  | 0, cursor => (leastLoaded loads softCap, cursor)
  | tries + 1, cursor =>
    let rank := cursor % loads.length
    let cursor' := (cursor + 1) % loads.length
    if loads.getD rank 0 < softCap then (rank, cursor') else nextRr loads softCap tries cursor'

namespace ConvRouting

variable (st : ConvRouting)

def place (k : ℕ) (reqItem : RequestQueueItem) (router : ConversationAwareADPRouter) : ConvRouting where
  placement := st.placement.place k reqItem
  router := router
  decisions := st.decisions ++ [⟨reqItem, k, st.router.recordedRank reqItem, st.placement.loads⟩]

def assignExplicit (maxNumActiveRequests : ℕ) : ConvRouting → List RequestQueueItem →
    Except RouteError (ConvRouting × List RequestQueueItem)
  | st, [] => .ok (st, [])
  | st, reqItem :: requests =>
    match if (st.router.recordedRank reqItem).isSome then .ok none
      else explicitSlot st.placement.loads maxNumActiveRequests reqItem.targetDpRank with
    | .error e => .error e
    | .ok (some k) => assignExplicit maxNumActiveRequests (st.place k reqItem (st.router.record reqItem k)) requests
    | .ok none =>
      match assignExplicit maxNumActiveRequests st requests with
      | .error e => .error e
      | .ok (st', remaining) => .ok (st', reqItem :: remaining)

/-- The rank by the placement policy, and the router with its cursor. -/
def spread (softCap : ℕ) : ℕ × ConversationAwareADPRouter :=
  match st.router.newConvPlacement with
  | .leastQueued => (leastLoaded st.placement.loads softCap, st.router)
  | .roundRobin =>
    let next := nextRr st.placement.loads softCap st.placement.loads.length st.router.roundRobinCursor
    (next.1, { st.router with roundRobinCursor := next.2 })

/-- The recorded rank of a request, while it is below the hard cap. -/
def stickyRank (maxNumActiveRequests : ℕ) (reqItem : RequestQueueItem) : Option ℕ :=
  (st.router.recordedRank reqItem).filter fun rank => st.placement.loads.getD rank 0 < maxNumActiveRequests

def placeNext (softCap maxNumActiveRequests : ℕ) (reqItem : RequestQueueItem) : ConvRouting :=
  match st.stickyRank maxNumActiveRequests reqItem with
  | some rank => st.place rank reqItem (st.router.record reqItem rank)
  | none =>
    let (rank, router) := st.spread softCap
    -- a saturated conversation keeps its binding
    st.place rank reqItem (if (st.router.recordedRank reqItem).isSome then router else router.record reqItem rank)

end ConvRouting

/-- The state at the end, with the placements, and `expected_num_active_requests`. -/
def ConversationAwareADPRouter.routeRequests (round : ℚ → PyFloat) (router : ConversationAwareADPRouter)
    (allRankStates : List RankState) (newRequests : List RequestQueueItem) (maxNumActiveRequests : ℕ) :
    Except RouteError (ConvRouting × ℕ) :=
  match ConvRouting.assignExplicit maxNumActiveRequests
    ⟨.start (allRankStates.map (·.numActiveRequests)), router, []⟩
    (sortByRelax ConversationAwareADPRouter.relaxValue newRequests) with
  | .error e => .error e
  | .ok (st, remaining) =>
    match expectedNumActiveRequests round st.placement.loads remaining.length router.fairShareMultiplier none with
    | .error e => .error e
    | .ok softCap =>
      let st' := remaining.foldl (fun st reqItem => st.placeNext softCap maxNumActiveRequests reqItem) st
      .ok (st', max softCap (busiest st'.placement.loads))

section Choice

variable {loads : List ℕ} {softCap : ℕ}

theorem foldl_minRank (loads ranks : List ℕ) (first : ℕ) :
    let best := ranks.foldl (fun best rank => if loads.getD rank 0 < loads.getD best 0 then rank else best) first
    best ∈ first :: ranks ∧ ∀ rank ∈ first :: ranks, loads.getD best 0 ≤ loads.getD rank 0 := by
  induction ranks generalizing first with
  | nil => simp
  | cons rank ranks ih =>
    obtain ⟨hmem, hle⟩ := ih (if loads.getD rank 0 < loads.getD first 0 then rank else first)
    simp only [foldl_cons]
    constructor
    · rcases mem_cons.1 hmem with heq | hmem
      · rw [heq]
        split
        · exact .tail _ (.head _)
        · exact (.head _)
      · exact .tail _ (.tail _ hmem)
    · have hbest := hle _ (.head _)
      intro other hother
      rcases mem_cons.1 hother with rfl | hother
      · refine hbest.trans ?_
        split <;> omega
      · rcases mem_cons.1 hother with rfl | hother
        · refine hbest.trans ?_
          split <;> omega
        · exact hle other (.tail _ hother)

/-- The least loaded rank is so among all ranks: those at the soft cap are no better. -/
theorem leastLoaded_spec (hranks : loads ≠ []) :
    leastLoaded loads softCap < loads.length ∧ ∀ k < loads.length, loads.getD (leastLoaded loads softCap) 0 ≤ loads.getD k 0 := by
  have hpos : 0 < loads.length := length_pos_iff.2 hranks
  unfold leastLoaded
  set below := (range loads.length).filter fun rank => loads.getD rank 0 < softCap with hbelow
  have hmem : ∀ k, k ∈ below ↔ k < loads.length ∧ loads.getD k 0 < softCap := by
    simp [hbelow]
  dsimp only
  split_ifs with hnone
  · have hrange : range loads.length ≠ [] := by simpa using hpos.ne'
    obtain ⟨first, rest, heq⟩ := exists_cons_of_ne_nil hrange
    obtain ⟨hbest, hle⟩ := foldl_minRank loads rest first
    rw [← heq] at hbest hle
    rw [heq]
    exact ⟨mem_range.1 hbest, fun k hk => hle k (mem_range.2 hk)⟩
  · obtain ⟨first, rest, heq⟩ := exists_cons_of_ne_nil hnone
    obtain ⟨hbest, hle⟩ := foldl_minRank loads rest first
    rw [← heq, hmem] at hbest
    rw [← heq] at hle
    rw [heq]
    refine ⟨hbest.1, fun k hk => ?_⟩
    by_cases hlt : loads.getD k 0 < softCap
    · exact hle k ((hmem k).2 ⟨hk, hlt⟩)
    · exact (hbest.2.trans_le (not_lt.1 hlt)).le

theorem nextRr_lt (hranks : loads ≠ []) (tries cursor : ℕ) : (nextRr loads softCap tries cursor).1 < loads.length := by
  induction tries generalizing cursor with
  | zero => exact (leastLoaded_spec hranks).1
  | succ tries ih =>
    simp only [nextRr]
    split
    · exact Nat.mod_lt _ (length_pos_iff.2 hranks)
    · exact ih _

end Choice

namespace ConversationAwareADPRouter

variable {router : ConversationAwareADPRouter} {numRanks rank : ℕ}

def RanksExist (numRanks : ℕ) (router : ConversationAwareADPRouter) : Prop := ∀ entry ∈ router.convToRank, entry.2 < numRanks

theorem RanksExist.record (h : RanksExist numRanks router) (hrank : rank < numRanks) (item : RequestQueueItem) :
    RanksExist numRanks (router.record item rank) := by
  unfold ConversationAwareADPRouter.record
  split
  · exact h
  intro entry hentry
  rcases mem_append.1 (mem_of_mem_drop hentry) with hold | hnew
  · exact h entry (mem_of_mem_filter hold)
  · rw [mem_singleton.1 hnew]
    exact hrank

end ConversationAwareADPRouter

/-- A request of a tracked conversation goes to the recorded rank unless that rank is full. -/
def Decision.Sticky (maxNumActiveRequests : ℕ) (d : Decision) : Prop :=
  ∀ rank ∈ d.recorded, d.loads.getD rank 0 < maxNumActiveRequests → d.rank = rank

namespace ConvRouting

open ConversationAwareADPRouter

variable {loads : List ℕ} {items reqs : List RequestQueueItem} {st : ConvRouting} {softCap cap : ℕ}

/-- The requests `items` were placed, as the record says and each on its rank if it had one. -/
structure Routed (loads : List ℕ) (maxNumActiveRequests : ℕ) (items : List RequestQueueItem) (st : ConvRouting) :
    Prop where
  holds : Placement.Holds loads items st.placement
  ranks : RanksExist loads.length st.router
  recorded : ∀ k < loads.length, st.placement.assigned.getD k [] = (st.decisions.filter fun d => d.rank = k).map (·.item)
  sticky : ∀ d ∈ st.decisions, d.Sticky maxNumActiveRequests

theorem Routed.start {router : ConversationAwareADPRouter} (hranks : RanksExist loads.length router) :
    Routed loads cap [] ⟨.start loads, router, []⟩ where
  holds := .start loads
  ranks := hranks
  recorded := by
    intro k hk
    simp [Placement.start, hk]
  sticky := by simp

variable {item : RequestQueueItem} {st' : ConvRouting} {remaining : List RequestQueueItem}

theorem Routed.place (h : Routed loads cap items st) {k : ℕ} (hk : k < loads.length)
    {router : ConversationAwareADPRouter} (hranks : RanksExist loads.length router)
    (hsticky : ∀ rank, st.stickyRank cap item = some rank → k = rank) :
    Routed loads cap (items ++ [item]) (st.place k item router) where
  holds := h.holds.place hk item
  ranks := hranks
  recorded := by
    intro j hj
    have hbefore := h.recorded j hj
    simp only [ConvRouting.place, Placement.getD_assigned_place (hk.trans_eq h.holds.length_assigned.symm),
      filter_append, map_append, ← hbefore]
    by_cases hkj : k = j
    · simp [hkj]
    · simp [hkj]
  sticky := by
    refine forall_mem_append.2 ⟨h.sticky, forall_mem_singleton.2 fun rank hrank hlt => ?_⟩
    exact hsticky rank (filter_eq_some_iff.2 ⟨hrank, decide_eq_true hlt⟩)

variable (st) in
def nextRank (softCap maxNumActiveRequests : ℕ) (reqItem : RequestQueueItem) : ℕ :=
  (st.stickyRank maxNumActiveRequests reqItem).getD (st.spread softCap).1

theorem stickyRank_spec {rank : ℕ} (h : st.stickyRank cap item = some rank) :
    st.router.recordedRank item = some rank ∧ st.placement.loads.getD rank 0 < cap := by
  obtain ⟨hrecorded, hlt⟩ := filter_eq_some_iff.1 h
  exact ⟨hrecorded, of_decide_eq_true hlt⟩

theorem Routed.placeNext (h : Routed loads cap items st) (hranks : loads ≠ [])
    (softCap : ℕ) (item : RequestQueueItem) :
    Routed loads cap (items ++ [item]) (st.placeNext softCap cap item) ∧
      (st.placeNext softCap cap item).placement.loads = bump st.placement.loads (st.nextRank softCap cap item) ∧
      st.nextRank softCap cap item < loads.length := by
  have hsome : st.placement.loads ≠ [] := by
    rw [← length_pos_iff, h.holds.length_loads, length_pos_iff]
    exact hranks
  unfold ConvRouting.placeNext nextRank
  cases hsticky : st.stickyRank cap item with
  | some rank =>
    obtain ⟨convId, -, hfind⟩ := bind_eq_some_iff.1 (stickyRank_spec hsticky).1
    obtain ⟨entry, hentry, rfl⟩ := map_eq_some_iff.1 hfind
    have hlt := h.ranks entry (mem_of_find?_eq_some hentry)
    refine ⟨h.place hlt (h.ranks.record hlt item) ?_, rfl, hlt⟩
    intro rank' hrank'
    rw [hsticky] at hrank'
    exact some.inj hrank'
  | none =>
    have hlt : (st.spread softCap).1 < loads.length := by
      rw [← h.holds.length_loads, spread]
      split
      · exact (leastLoaded_spec hsome).1
      · exact nextRr_lt hsome _ _
    have hexist : RanksExist loads.length (st.spread softCap).2 := by
      intro entry hentry
      unfold spread at hentry
      split at hentry <;> exact h.ranks entry hentry
    refine ⟨h.place hlt ?_ (by simp [hsticky]), rfl, hlt⟩
    split
    · exact hexist
    · exact hexist.record hlt item

/-- No request without a recorded rank names a bad explicit rank in its turn. -/
def GoodExplicit (maxNumActiveRequests : ℕ) : ConvRouting → List RequestQueueItem → Prop
  | _, [] => True
  | st, reqItem :: requests =>
    (st.router.recordedRank reqItem = none → ¬ BadTarget st.placement.loads maxNumActiveRequests reqItem.targetDpRank) ∧
    match if (st.router.recordedRank reqItem).isSome then .ok none
      else explicitSlot st.placement.loads maxNumActiveRequests reqItem.targetDpRank with
    | .ok (some k) => GoodExplicit maxNumActiveRequests (st.place k reqItem (st.router.record reqItem k)) requests
    | _ => GoodExplicit maxNumActiveRequests st requests

variable (st cap) in
theorem explicit_cases (item : RequestQueueItem) :
    ((∃ e, (if (st.router.recordedRank item).isSome then .ok none
        else explicitSlot st.placement.loads cap item.targetDpRank) = .error e) ∧
      ¬ (st.router.recordedRank item = none → ¬ BadTarget st.placement.loads cap item.targetDpRank)) ∨
    (∃ slot, (if (st.router.recordedRank item).isSome then .ok none
        else explicitSlot st.placement.loads cap item.targetDpRank) = .ok slot ∧
      (st.router.recordedRank item = none → ¬ BadTarget st.placement.loads cap item.targetDpRank) ∧
      ∀ k, slot = some k → st.router.recordedRank item = none ∧ k < st.placement.loads.length ∧
        st.placement.loads.getD k 0 < cap) := by
  cases hrecorded : st.router.recordedRank item with
  | some rank => exact .inr ⟨none, by simp, by simp, by simp⟩
  | none =>
    have hok : (∃ slot, explicitSlot st.placement.loads cap item.targetDpRank = .ok slot) ↔
        ¬ BadTarget st.placement.loads cap item.targetDpRank := explicitSlot_isOk_iff
    simp only [isSome_none, Bool.false_eq_true, if_false, true_imp_iff]
    cases hslot : explicitSlot st.placement.loads cap item.targetDpRank with
    | error e =>
      refine .inl ⟨⟨e, rfl⟩, fun hgood => ?_⟩
      obtain ⟨slot, hslot'⟩ := hok.2 hgood
      simp [hslot] at hslot'
    | ok slot =>
      refine .inr ⟨slot, rfl, hok.1 ⟨slot, hslot⟩, ?_⟩
      rintro k rfl
      exact ⟨trivial, (explicitSlot_spec hslot).2⟩

theorem assignExplicit_isOk_iff (st : ConvRouting) (cap : ℕ) (reqs : List RequestQueueItem) :
    (∃ result, assignExplicit cap st reqs = .ok result) ↔ GoodExplicit cap st reqs := by
  induction reqs generalizing st with
  | nil => exact iff_of_true ⟨_, rfl⟩ trivial
  | cons item reqs ih =>
    unfold assignExplicit GoodExplicit
    rcases explicit_cases st cap item with ⟨⟨e, hslot⟩, hbad⟩ | ⟨slot, hslot, hgood, -⟩
    · rw [hslot]
      exact iff_of_false (by simp) fun h => hbad h.1
    rw [hslot, and_iff_right hgood]
    cases slot with
    | some k => exact ih _
    | none =>
      rw [← ih]
      cases assignExplicit cap st reqs with
      | error e => simp
      | ok result => exact iff_of_true ⟨_, rfl⟩ ⟨_, rfl⟩

theorem newConvPlacement_record (router : ConversationAwareADPRouter) (item : RequestQueueItem) (rank : ℕ) :
    (router.record item rank).newConvPlacement = router.newConvPlacement := by
  unfold record
  split <;> rfl

theorem assignExplicit_spec (h : Routed loads cap items st) (hrun : assignExplicit cap st reqs = .ok (st', remaining)) :
    ∃ placed, (placed ++ remaining).Perm reqs ∧ Routed loads cap (items ++ placed) st' ∧
      st'.router.newConvPlacement = st.router.newConvPlacement ∧
      ((∀ k, st.placement.loads.getD k 0 ≤ cap) → ∀ k, st'.placement.loads.getD k 0 ≤ cap) := by
  induction reqs generalizing st items st' remaining with
  | nil =>
    obtain ⟨rfl, rfl⟩ := hrun
    exact ⟨[], .refl _, by simpa using h, rfl, fun hle => hle⟩
  | cons item reqs ih =>
    unfold assignExplicit at hrun
    rcases explicit_cases st cap item with ⟨⟨e, hslot⟩, -⟩ | ⟨slot, hslot, -, hspec⟩
    · simp [hslot] at hrun
    rw [hslot] at hrun
    cases slot with
    | none =>
      cases hrest : assignExplicit cap st reqs with
      | error e => simp [hrest] at hrun
      | ok result =>
        simp only [hrest] at hrun
        obtain ⟨rfl, rfl⟩ := hrun
        obtain ⟨placed, hperm, hrouted⟩ := ih h hrest
        exact ⟨placed, perm_middle.trans (hperm.cons item), hrouted⟩
    | some k =>
      obtain ⟨hnone, hk, hlt⟩ := hspec k rfl
      have hk' := hk.trans_eq h.holds.length_loads
      obtain ⟨placed, hperm, hrouted, hpolicy, hle⟩ := ih
        (h.place hk' (h.ranks.record hk' item) (by simp [stickyRank, hnone])) hrun
      exact ⟨item :: placed, hperm.cons item, by simpa using hrouted, hpolicy.trans (newConvPlacement_record _ _ _),
        fun hbefore => hle (getD_bump_le hk hlt hbefore)⟩

variable (st) in
/-- If the request is left to round-robin, the rank that is next below the soft cap is also below the hard cap. -/
def RoundRobinFits (softCap maxNumActiveRequests : ℕ) (reqItem : RequestQueueItem) : Prop :=
  st.stickyRank maxNumActiveRequests reqItem = none → st.router.newConvPlacement = .roundRobin →
    st.placement.loads.getD (nextRr st.placement.loads softCap st.placement.loads.length st.router.roundRobinCursor).1 0 <
      maxNumActiveRequests

def RoundRobinFitsAlong (softCap maxNumActiveRequests : ℕ) : ConvRouting → List RequestQueueItem → Prop
  | _, [] => True
  | st, reqItem :: requests =>
    st.RoundRobinFits softCap maxNumActiveRequests reqItem ∧
      RoundRobinFitsAlong softCap maxNumActiveRequests (st.placeNext softCap maxNumActiveRequests reqItem) requests

theorem nextRank_lt_iff (hroom : 0 < room cap st.placement.loads) (item : RequestQueueItem) :
    st.placement.loads.getD (st.nextRank softCap cap item) 0 < cap ↔ st.RoundRobinFits softCap cap item := by
  obtain ⟨k, hk, hlt⟩ := room_pos_iff.1 hroom
  have hranks : st.placement.loads ≠ [] := length_pos_iff.1 (by omega)
  unfold nextRank RoundRobinFits
  cases hsticky : st.stickyRank cap item with
  | some rank => exact iff_of_true (stickyRank_spec hsticky).2 (by simp)
  | none =>
    simp only [getD_none, spread]
    cases st.router.newConvPlacement with
    | leastQueued =>
      refine iff_of_true ?_ (by simp)
      exact ((leastLoaded_spec hranks).2 k hk).trans_lt hlt
    | roundRobin => simp only [true_imp_iff]

variable (h : Routed loads cap items st)

include h

theorem Routed.foldl_placeNext (hranks : loads ≠ []) (softCap : ℕ) (reqs : List RequestQueueItem) :
    Routed loads cap (items ++ reqs) (reqs.foldl (fun st item => st.placeNext softCap cap item) st) ∧
      ∀ k, st.placement.loads.getD k 0 ≤
        (reqs.foldl (fun st item => st.placeNext softCap cap item) st).placement.loads.getD k 0 := by
  induction reqs generalizing st items with
  | nil => exact ⟨by simpa using h, fun _ => le_rfl⟩
  | cons item reqs ih =>
    obtain ⟨hrouted, hloads, hlt⟩ := h.placeNext hranks softCap item
    obtain ⟨hend, hle⟩ := ih hrouted
    refine ⟨by simpa using hend, fun k => le_trans ?_ (hle k)⟩
    rw [hloads, getD_bump (hlt.trans_eq h.holds.length_loads.symm)]
    split <;> omega

/-- With room for all, the loop keeps to the hard cap exactly if round-robin does in every round. -/
theorem foldl_placeNext_le_iff (hranks : loads ≠ []) (softCap : ℕ)
    (hle : ∀ k, st.placement.loads.getD k 0 ≤ cap)
    (hroom : reqs.length ≤ room cap st.placement.loads) :
    (∀ k, (reqs.foldl (fun st item => st.placeNext softCap cap item) st).placement.loads.getD
      k 0 ≤ cap) ↔ RoundRobinFitsAlong softCap cap st reqs := by
  induction reqs generalizing st items with
  | nil => exact iff_of_true hle trivial
  | cons item reqs ih =>
    rw [length_cons] at hroom
    obtain ⟨hrouted, hloads, hlt⟩ := h.placeNext hranks softCap item
    have hlt' := hlt.trans_eq h.holds.length_loads.symm
    unfold RoundRobinFitsAlong
    rw [← nextRank_lt_iff (by omega) item]
    by_cases hfits : st.placement.loads.getD (st.nextRank softCap cap item) 0 < cap
    · have hbump := room_bump hlt' hfits
      rw [and_iff_right hfits]
      refine ih hrouted ?_ (by rw [hloads]; omega)
      rw [hloads]
      exact getD_bump_le hlt' hfits hle
    · refine iff_of_false (fun hall => hfits ?_) fun hboth => hfits hboth.1
      have hgrown := ((hrouted.foldl_placeNext hranks softCap reqs).2 (st.nextRank softCap cap item)).trans (hall _)
      rw [hloads, getD_bump hlt', if_pos rfl] at hgrown
      omega

/-! ### Least-queued placement -/

theorem goodExplicit_of_valid (hvalid : ∀ item ∈ reqs, ∀ rank ∈ item.targetDpRank, 0 ≤ rank ∧ rank < loads.length) :
    GoodExplicit cap st reqs := by
  induction reqs generalizing st items with
  | nil => trivial
  | cons item reqs ih =>
    obtain ⟨hhead, hrest⟩ := forall_mem_cons.1 hvalid
    unfold GoodExplicit
    rcases explicit_cases st cap item with ⟨-, hbad⟩ | ⟨slot, hslot, hgood, hspec⟩
    · refine absurd (fun _ => not_badTarget_of_valid ?_) hbad
      rw [h.holds.length_loads]
      exact hhead
    · rw [hslot]
      refine ⟨hgood, ?_⟩
      cases slot with
      | none => exact ih h hrest
      | some k =>
        obtain ⟨hnone, hk, -⟩ := hspec k rfl
        have hk' := hk.trans_eq h.holds.length_loads
        exact ih (h.place hk' (h.ranks.record hk' item) (by simp [stickyRank, hnone])) hrest

omit h

theorem roundRobinFitsAlong_of_leastQueued (h : st.router.newConvPlacement = .leastQueued) :
    RoundRobinFitsAlong softCap cap st reqs := by
  induction reqs generalizing st with
  | nil => trivial
  | cons item reqs ih =>
    refine ⟨fun _ hround => by simp [h] at hround, ih ?_⟩
    unfold placeNext spread
    rw [h]
    split
    · exact (newConvPlacement_record _ _ _).trans h
    · dsimp only
      split
      · exact h
      · exact (newConvPlacement_record _ _ _).trans h

end ConvRouting

/-! ### Capacity and stickiness of a call -/

namespace ConversationAwareADPRouter

open ConvRouting

variable (router : ConversationAwareADPRouter)

/-- The explicit ranks raise nothing, the soft cap is a number, and round-robin under it never picks a full rank. -/
def StaysWithin (round : ℚ → PyFloat) (allRankStates : List RankState) (newRequests : List RequestQueueItem)
    (maxNumActiveRequests : ℕ) : Prop :=
  GoodExplicit maxNumActiveRequests ⟨.start (allRankStates.map (·.numActiveRequests)), router, []⟩
      (sortByRelax relaxValue newRequests) ∧
    ∀ st remaining,
      assignExplicit maxNumActiveRequests ⟨.start (allRankStates.map (·.numActiveRequests)), router, []⟩
        (sortByRelax relaxValue newRequests) = .ok (st, remaining) →
      ∃ softCap, expectedNumActiveRequests round st.placement.loads remaining.length router.fairShareMultiplier none =
          .ok softCap ∧
        RoundRobinFitsAlong softCap maxNumActiveRequests st remaining

/-- Every request is assigned once, no rank ends above the cap and conversations stick to their ranks, iff the call
stays within the cap by `StaysWithin`. -/
theorem routeRequests_within_iff (round : ℚ → PyFloat) (router : ConversationAwareADPRouter)
    (allRankStates : List RankState) (newRequests : List RequestQueueItem) (maxNumActiveRequests : ℕ)
    (hranks : allRankStates ≠ []) (hloads : ∀ state ∈ allRankStates, state.numActiveRequests ≤ maxNumActiveRequests)
    (hbudget : (allRankStates.map (·.numActiveRequests)).sum + newRequests.length ≤ allRankStates.length * maxNumActiveRequests)
    (hhistory : RanksExist allRankStates.length router) :
    (∃ st expected, router.routeRequests round allRankStates newRequests maxNumActiveRequests = .ok (st, expected) ∧
        st.placement.assigned.length = allRankStates.length ∧ st.placement.assigned.flatten.Perm newRequests ∧
        (∀ k < allRankStates.length, st.placement.assigned.getD k [] = (st.decisions.filter fun d => d.rank = k).map (·.item)) ∧
        (∀ d ∈ st.decisions, d.Sticky maxNumActiveRequests) ∧
        ∀ k < allRankStates.length, (allRankStates.map (·.numActiveRequests)).getD k 0 +
          (st.placement.assigned.getD k []).length ≤ maxNumActiveRequests) ↔
      router.StaysWithin round allRankStates newRequests maxNumActiveRequests := by
  set loads := allRankStates.map (·.numActiveRequests) with hdef
  have hlength : loads.length = allRankStates.length := by simp [hdef]
  rw [← hlength] at hbudget hhistory ⊢
  have hsome : loads ≠ [] := by simpa [hdef] using hranks
  have hle : ∀ k, loads.getD k 0 ≤ maxNumActiveRequests := getD_numActiveRequests_le hloads
  have hstart : Routed loads maxNumActiveRequests [] ⟨.start loads, router, []⟩ := .start hhistory
  -- after the explicit ranks there is room for the rest
  have hexplicit : ∀ st remaining,
      assignExplicit maxNumActiveRequests ⟨.start loads, router, []⟩ (sortByRelax relaxValue newRequests) = .ok (st, remaining) →
      ∃ placed, (placed ++ remaining).Perm newRequests ∧ Routed loads maxNumActiveRequests placed st ∧
        (∀ k, st.placement.loads.getD k 0 ≤ maxNumActiveRequests) ∧
        remaining.length ≤ room maxNumActiveRequests st.placement.loads := by
    intro st remaining hrun
    obtain ⟨placed, hperm, hrouted, -, hle'⟩ := assignExplicit_spec hstart hrun
    have hperm' := hperm.trans (sortByRelax_perm _ newRequests)
    refine ⟨placed, hperm', hrouted, hle' hle, ?_⟩
    have hcount := hperm'.length_eq
    have hsum := hrouted.holds.sum_loads
    have hroom := le_room maxNumActiveRequests st.placement.loads
    rw [hrouted.holds.length_loads] at hroom
    simp only [nil_append, length_append] at hcount hsum
    omega
  have hgood := assignExplicit_isOk_iff ⟨.start loads, router, []⟩ maxNumActiveRequests (sortByRelax relaxValue newRequests)
  unfold StaysWithin
  rw [← hdef, ← hgood]
  constructor
  · rintro ⟨st, expected, hroute, -, -, -, -, hcap⟩
    unfold routeRequests at hroute
    rw [← hdef] at hroute
    split at hroute
    · simp at hroute
    rename_i st₁ remaining hrun
    refine ⟨⟨_, hrun⟩, ?_⟩
    intro st₂ remaining₂ hrun₂
    obtain ⟨rfl, rfl⟩ : st₁ = st₂ ∧ remaining = remaining₂ := by simpa [hrun] using hrun₂
    obtain ⟨placed, -, hrouted, hle', hroom⟩ := hexplicit st₁ remaining hrun
    split at hroute
    · simp at hroute
    rename_i softCap hsoft
    refine ⟨softCap, hsoft, (foldl_placeNext_le_iff hrouted hsome softCap hle' hroom).1 fun k => ?_⟩
    obtain ⟨rfl, -⟩ := hroute
    have hend := (hrouted.foldl_placeNext hsome softCap remaining).1
    by_cases hk : k < loads.length
    · rw [hend.holds.load k hk]
      exact hcap k hk
    · rw [getD_eq_getElem?_getD, getElem?_eq_none (by rw [hend.holds.length_loads]; omega)]
      exact Nat.zero_le _
  · rintro ⟨⟨⟨st, remaining⟩, hrun⟩, hfits⟩
    obtain ⟨softCap, hsoft, halong⟩ := hfits st remaining hrun
    obtain ⟨placed, hperm, hrouted, hle', hroom⟩ := hexplicit st remaining hrun
    have hend := (hrouted.foldl_placeNext hsome softCap remaining).1
    have hcap := (foldl_placeNext_le_iff hrouted hsome softCap hle' hroom).2 halong
    set final := remaining.foldl (fun st => st.placeNext softCap maxNumActiveRequests) st
    have hroute : router.routeRequests round allRankStates newRequests maxNumActiveRequests =
        .ok (final, max softCap (busiest final.placement.loads)) := by
      simp only [routeRequests, ← hdef, hrun, hsoft, final]
    refine ⟨_, _, hroute, hend.holds.length_assigned, hend.holds.perm.trans hperm, hend.recorded, hend.sticky, ?_⟩
    intro k hk
    rw [← hend.holds.load k hk]
    exact hcap k

variable {router}

/-- Least-queued placement stays within the cap for valid explicit ranks and a finite soft cap. -/
theorem staysWithin_of_leastQueued {round : ℚ → PyFloat} {states : List RankState}
    {reqs : List RequestQueueItem} {cap : ℕ} (hranks : states ≠ [])
    (hhistory : RanksExist states.length router) (hpolicy : router.newConvPlacement = .leastQueued)
    (hvalid : ∀ item ∈ reqs, ∀ rank ∈ item.targetDpRank, 0 ≤ rank ∧ rank < states.length)
    (hshare : ∀ share, ∃ scaled, ceilProduct round router.fairShareMultiplier share = .ok scaled) :
    router.StaysWithin round states reqs cap := by
  have hstart : Routed (states.map (·.numActiveRequests)) cap []
      ⟨.start (states.map (·.numActiveRequests)), router, []⟩ := .start (by simpa using hhistory)
  refine ⟨goodExplicit_of_valid hstart ?_, ?_⟩
  · intro item hitem
    simpa using hvalid item ((sortByRelax_perm _ reqs).subset hitem)
  intro st remaining hrun
  obtain ⟨placed, -, hrouted, hsame, -⟩ := assignExplicit_spec hstart hrun
  have hlength : st.placement.loads.length = states.length := by simpa using hrouted.holds.length_loads
  obtain ⟨scaled, hscaled⟩ := hshare (fairShare st.placement.loads remaining.length)
  refine ⟨_, by rw [expectedNumActiveRequests, if_neg (by simpa [hlength] using hranks), hscaled], ?_⟩
  exact roundRobinFitsAlong_of_leastQueued (hsame.trans hpolicy)

theorem routeRequests_within_least_queued :
    ∃ st expected, (create 16 (.finite 2) .leastQueued).routeRequests .finite [⟨2, 0⟩, ⟨0, 0⟩] [.anyRank 1] 2 =
        .ok (st, expected) ∧ st.placement.assigned.flatten.Perm [.anyRank 1] ∧
        ∀ k < 2, [2, 0].getD k 0 + (st.placement.assigned.getD k []).length ≤ 2 := by
  have hwithin : (create 16 (.finite 2) .leastQueued).StaysWithin .finite [⟨2, 0⟩, ⟨0, 0⟩] [.anyRank 1] 2 :=
    staysWithin_of_leastQueued (by decide) (by simp [RanksExist, create]) rfl (by decide) fun share => ⟨_, rfl⟩
  obtain ⟨st, expected, hroute, -, hperm, -, -, hcap⟩ := (routeRequests_within_iff .finite
    (create 16 (.finite 2) .leastQueued) [⟨2, 0⟩, ⟨0, 0⟩] [.anyRank 1] 2 (by decide) (by decide) (by decide)
    (by simp [RanksExist, create])).2 hwithin
  exact ⟨st, expected, hroute, hperm, hcap⟩

/-- Rank 0 is full, but below the soft cap of twice the fair share: round-robin puts the request there. -/
theorem routeRequests_exceeds_cap :
    ((create 16 (.finite 2) .roundRobin).routeRequests .finite [⟨2, 0⟩, ⟨0, 0⟩] [.anyRank 1] 2).map
      (fun result => result.1.placement) = .ok ⟨[3, 0], [[.anyRank 1], []]⟩ := by
  decide +kernel

end ConversationAwareADPRouter

end TrtLlm.Scheduler
