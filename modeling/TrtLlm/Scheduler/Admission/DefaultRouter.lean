import TrtLlm.Scheduler.Admission.AdpRouter
import TrtLlm.Scheduler.Admission.Fetch

/-!
# The default attention-DP router

After the explicit ranks the router balances by tokens: a heap holds the ranks below the target, the rank with the
fewest tokens gets the next request and leaves the heap when it reaches the target. Together with the budget with
which requests are fetched, the heap never runs empty.
-/

namespace TrtLlm.Scheduler

open List RequestQueueItem

/-- The request list of an entry is the list of its rank, kept in `Balance`. -/
structure HeapVal where
  numTokens : ℕ
  numRequests : ℕ
  rank : ℕ
  deriving DecidableEq, Repr

/-- The order of the entries as tuples: the ranks differ, so lists are never compared. -/
def HeapVal.Le (a b : HeapVal) : Prop :=
  a.numTokens < b.numTokens ∨
    a.numTokens = b.numTokens ∧ (a.numRequests < b.numRequests ∨ a.numRequests = b.numRequests ∧ a.rank ≤ b.rank)

instance : DecidableRel HeapVal.Le := fun a b =>
  inferInstanceAs (Decidable (a.numTokens < b.numTokens ∨
    a.numTokens = b.numTokens ∧ (a.numRequests < b.numRequests ∨ a.numRequests = b.numRequests ∧ a.rank ≤ b.rank)))

structure Balance where
  heap : List HeapVal
  scheduled : List (List RequestQueueItem)

namespace DefaultADPRouter

/-- `heappush`, while the rank is below the target. -/
def pushBelow (expectedNumActiveRequests : ℕ) (val : HeapVal) (heap : List HeapVal) : List HeapVal :=
  if val.numRequests < expectedNumActiveRequests then heap.orderedInsert HeapVal.Le val else heap

def balanceRequest (expectedNumActiveRequests : ℕ) (st : Balance) (reqItem : RequestQueueItem) :
    Except RouteError Balance :=
  match st.heap with
  | [] => .error .popFromEmptyHeap
  | val :: heap =>
    let val := { val with
      numTokens := val.numTokens + reqItem.numInputTokens
      numRequests := val.numRequests + 1 }
    .ok {
      heap := pushBelow expectedNumActiveRequests val heap
      scheduled := st.scheduled.modify val.rank (· ++ [reqItem]) }

def balanceHeap (loads tokens : List ℕ) (expectedNumActiveRequests : ℕ) : List HeapVal :=
  (((List.range loads.length).map fun k => ⟨tokens.getD k 0, loads.getD k 0, k⟩).filter
    fun val : HeapVal => val.numRequests < expectedNumActiveRequests).insertionSort HeapVal.Le

def counted (requests : List RequestQueueItem) : List RequestQueueItem :=
  requests.insertionSort fun a b => b.numInputTokens ≤ a.numInputTokens

def balanceRequestsAcrossRanks (requests : List RequestQueueItem) (p : Placement RequestQueueItem) (tokens : List ℕ)
    (expectedNumActiveRequests : ℕ) : Except RouteError (List (List RequestQueueItem)) :=
  if requests = [] then .ok p.assigned
  else
    match (counted requests).foldlM (balanceRequest expectedNumActiveRequests)
      ⟨balanceHeap p.loads tokens expectedNumActiveRequests, p.loads.map fun _ => []⟩ with
    | .error e => .error e
    | .ok st => .ok (List.zipWith (· ++ ·) p.assigned st.scheduled)

/-- The new requests of each rank, and `expected_num_active_requests`. -/
def routeRequests (round : ℚ → PyFloat) (allRankStates : List RankState) (newRequests : List RequestQueueItem)
    (maxNumActiveRequests : ℕ) : Except RouteError (List (List RequestQueueItem) × ℕ) :=
  let loads := allRankStates.map (·.numActiveRequests)
  let tokens := allRankStates.map (·.numActiveTokens)
  match assignExplicitDpRanks maxNumActiveRequests (.start loads) (sortByRelax (·.relaxValue) newRequests) with
  | .error e => .error e
  | .ok (p, remaining) =>
    match expectedNumActiveRequests round p.loads remaining.length (.finite 1) (some maxNumActiveRequests) with
    | .error e => .error e
    | .ok expected =>
      match balanceRequestsAcrossRanks remaining p tokens expected with
      | .error e => .error e
      | .ok allRanksNewRequests => .ok (allRanksNewRequests, expected)

/-! ### Balancing -/

/-- After the requests `done` the heap holds the ranks whose load `loads'` is below the target. -/
structure Balancing (expected : ℕ) (loads : List ℕ) (done : List RequestQueueItem) (loads' : List ℕ) (st : Balance) :
    Prop where
  holds : Placement.Holds loads done ⟨loads', st.scheduled⟩
  mem_heap : ∀ k, (∃ val ∈ st.heap, val.rank = k) ↔ k < loads.length ∧ loads'.getD k 0 < expected
  numRequests : ∀ val ∈ st.heap, val.numRequests = loads'.getD val.rank 0
  nodup : (st.heap.map (·.rank)).Nodup
  le : ∀ k, loads'.getD k 0 ≤ max expected (loads.getD k 0)
  room_eq : room expected loads' + done.length = room expected loads

variable {want : ℕ} {loads loads' : List ℕ} {done : List RequestQueueItem} {st : Balance} {val : HeapVal}
  {round : ℚ → PyFloat}

theorem mem_pushBelow {v : HeapVal} {heap : List HeapVal} :
    v ∈ pushBelow want val heap ↔ val.numRequests < want ∧ v = val ∨ v ∈ heap := by
  unfold pushBelow
  split
  · rename_i hbelow
    simp [hbelow]
  · rename_i hbelow
    simp [hbelow]

theorem Balancing.start (loads tokens : List ℕ) (want : ℕ) :
    Balancing want loads [] loads ⟨balanceHeap loads tokens want, loads.map fun _ => []⟩ where
  holds := .start loads
  mem_heap := by
    intro k
    simp only [balanceHeap, mem_insertionSort, mem_filter, mem_map, mem_range, decide_eq_true_eq]
    constructor
    · rintro ⟨val, ⟨⟨j, hj, rfl⟩, hlt⟩, rfl⟩
      exact ⟨hj, hlt⟩
    · rintro ⟨hk, hlt⟩
      exact ⟨_, ⟨⟨k, hk, rfl⟩, hlt⟩, rfl⟩
  numRequests := by
    intro val hval
    simp only [balanceHeap, mem_insertionSort, mem_filter, mem_map] at hval
    obtain ⟨⟨k, -, rfl⟩, -⟩ := hval
    rfl
  nodup := by
    refine (((perm_insertionSort HeapVal.Le _).map _).nodup_iff).2 ?_
    refine .sublist (filter_sublist.map _) ?_
    rw [map_map]
    exact nodup_range.map fun _ _ heq => heq
  le := fun k => le_max_right _ _
  room_eq := rfl

theorem Balancing.next (h : Balancing want loads done loads' st) (hroom : 0 < room want loads')
    (reqItem : RequestQueueItem) :
    ∃ k st', balanceRequest want st reqItem = .ok st' ∧ Balancing want loads (done ++ [reqItem]) (bump loads' k) st' := by
  have hlength : loads'.length = loads.length := h.holds.length_loads
  obtain ⟨heap, scheduled⟩ := st
  cases heap with
  | nil =>
    obtain ⟨k, hk, hlt⟩ := room_pos_iff.1 hroom
    obtain ⟨val, hval, -⟩ := (h.mem_heap k).2 ⟨hk.trans_eq hlength, hlt⟩
    simp at hval
  | cons val heap =>
    obtain ⟨hrank, hlt⟩ := (h.mem_heap val.rank).1 ⟨val, (.head _), rfl⟩
    have hrank' : val.rank < loads'.length := hrank.trans_eq hlength.symm
    have hnum := h.numRequests val (.head _)
    obtain ⟨hnew, -⟩ := nodup_cons.1 h.nodup
    have hother : ∀ v ∈ heap, val.rank ≠ v.rank := fun v hv heq => hnew (mem_map.2 ⟨v, hv, heq.symm⟩)
    refine ⟨val.rank, _, rfl, ?_⟩
    refine ⟨h.holds.place hrank reqItem, ?_, ?_, ?_, ?_, ?_⟩
    · intro j
      simp only [mem_pushBelow, getD_bump hrank']
      by_cases hj : val.rank = j
      · subst hj
        simp only [← hnum]
        constructor
        · rintro ⟨v, ⟨hbelow, -⟩ | hv, hv'⟩
          · exact ⟨hrank, hbelow⟩
          · exact absurd hv'.symm (hother v hv)
        · rintro ⟨-, hbelow⟩
          exact ⟨_, .inl ⟨hbelow, rfl⟩, rfl⟩
      · rw [if_neg hj, ← h.mem_heap j]
        constructor
        · rintro ⟨v, ⟨-, rfl⟩ | hv, hv'⟩
          · exact absurd hv' hj
          · exact ⟨v, .tail _ hv, hv'⟩
        · rintro ⟨v, hv, hv'⟩
          rcases mem_cons.1 hv with rfl | hv
          · exact absurd hv' hj
          · exact ⟨v, .inr hv, hv'⟩
    · intro v hv
      rw [getD_bump hrank']
      rcases mem_pushBelow.1 hv with ⟨-, rfl⟩ | hv
      · simp only [if_true, hnum]
      · rw [if_neg (hother v hv)]
        exact h.numRequests v (.tail _ hv)
    · unfold pushBelow
      split
      · exact ((perm_orderedInsert _ _ _).map _).nodup_iff.2 h.nodup
      · exact (nodup_cons.1 h.nodup).2
    · exact getD_bump_le hrank' (lt_max_of_lt_left hlt) h.le
    · have hbump := room_bump hrank' hlt
      have hbefore := h.room_eq
      simp only [length_append, length_singleton]
      omega

theorem Balancing.all (h : Balancing want loads done loads' st) (reqs : List RequestQueueItem)
    (hroom : reqs.length ≤ room want loads') :
    ∃ loads'' st', reqs.foldlM (balanceRequest want) st = .ok st' ∧
      Balancing want loads (done ++ reqs) loads'' st' := by
  induction reqs generalizing done loads' st with
  | nil => exact ⟨loads', st, rfl, by simpa using h⟩
  | cons reqItem reqs ih =>
    rw [length_cons] at hroom
    obtain ⟨k, st', hstep, hnext⟩ := h.next (by omega) reqItem
    have hleft : reqs.length ≤ room want (bump loads' k) := by
      have hbefore := h.room_eq
      have hafter := hnext.room_eq
      rw [length_append, length_singleton] at hafter
      omega
    obtain ⟨loads'', st'', hrest, hall⟩ := ih hnext hleft
    refine ⟨loads'', st'', ?_, by simpa using hall⟩
    rw [foldlM_cons, hstep]
    exact hrest

variable {items : List RequestQueueItem}

theorem balanceRequestsAcrossRanks_spec {reqs : List RequestQueueItem} {p : Placement RequestQueueItem}
    (hp : Placement.Holds loads items p) (tokens : List ℕ) (hroom : reqs.length ≤ room want p.loads) :
    ∃ p', balanceRequestsAcrossRanks reqs p tokens want = .ok p'.assigned ∧
      Placement.Holds loads (items ++ reqs) p' ∧ (∀ k, p'.loads.getD k 0 ≤ max want (p.loads.getD k 0)) ∧
      ∀ k, ∀ item ∈ p.assigned.getD k [], item ∈ p'.assigned.getD k [] := by
  unfold balanceRequestsAcrossRanks
  split
  · rename_i hnil
    subst hnil
    exact ⟨p, rfl, by simpa using hp, fun k => le_max_right _ _, fun _ _ h => h⟩
  · have hperm := perm_insertionSort (fun a b : RequestQueueItem => b.numInputTokens ≤ a.numInputTokens) reqs
    obtain ⟨loads'', st, hrun, hall⟩ := (Balancing.start p.loads tokens want).all (counted reqs)
      (hperm.length_eq.trans_le hroom)
    rw [hrun]
    refine ⟨⟨loads'', zipWith (· ++ ·) p.assigned st.scheduled⟩, rfl, ?_, hall.le, ?_⟩
    · have hboth := hp.append hall.holds
      exact hboth.perm_items (hperm.append_left items)
    intro k item hitem
    have hlength : p.assigned.length = st.scheduled.length := by
      rw [hp.length_assigned, hall.holds.length_assigned, hp.length_loads]
    rw [Placement.getD_zipWith_append hlength]
    exact mem_append_left _ hitem

section Explicit

variable {cap : ℕ} {items : List RequestQueueItem} {p : Placement RequestQueueItem} (hp : Placement.Holds loads items p)

include hp

theorem mem_assigned_place {k j : ℕ} {a b : RequestQueueItem} (hk : k < loads.length) (hb : b ∈ p.assigned.getD j []) :
    b ∈ (p.place k a).assigned.getD j [] := by
  rw [Placement.getD_assigned_place (hk.trans_eq hp.length_assigned.symm)]
  split
  · exact mem_append_left _ hb
  · exact hb

theorem assignExplicitDpRanks_spec (reqs : List RequestQueueItem)
    (hvalid : ∀ item ∈ reqs, ∀ rank ∈ item.targetDpRank, 0 ≤ rank ∧ rank < loads.length)
    (hle : ∀ k, p.loads.getD k 0 ≤ cap) :
    ∃ p' placed remaining, assignExplicitDpRanks cap p reqs = .ok (p', remaining) ∧
      (placed ++ remaining).Perm reqs ∧ Placement.Holds loads (items ++ placed) p' ∧
      (∀ k, p'.loads.getD k 0 ≤ cap) ∧
      ∀ k, ∀ item ∈ p.assigned.getD k [], item ∈ p'.assigned.getD k [] := by
  induction reqs generalizing p items with
  | nil => exact ⟨p, [], [], rfl, .refl _, by simpa using hp, hle, fun _ _ h => h⟩
  | cons reqItem reqs ih =>
    obtain ⟨hhead, hrest⟩ := forall_mem_cons.1 hvalid
    have hgood : ¬ BadTarget p.loads cap reqItem.targetDpRank := by
      refine not_badTarget_of_valid ?_
      rw [hp.length_loads]
      exact hhead
    obtain ⟨slot, hslot⟩ := explicitSlot_isOk_iff.2 hgood
    cases slot with
    | none =>
      obtain ⟨p', placed, remaining, hrun, hperm, hholds, hle', hkeep⟩ := ih hp hrest hle
      refine ⟨p', placed, reqItem :: remaining, ?_, ?_, hholds, hle', hkeep⟩
      · simp only [assignExplicitDpRanks, hslot, hrun]
      · exact perm_middle.trans (hperm.cons reqItem)
    | some k =>
      obtain ⟨-, hk, hlt⟩ := explicitSlot_spec hslot
      have hk' : k < loads.length := hk.trans_eq hp.length_loads
      obtain ⟨p', placed, remaining, hrun, hperm, hholds, hle', hkeep⟩ := ih (hp.place hk' reqItem) hrest
        (getD_bump_le hk hlt hle)
      refine ⟨p', reqItem :: placed, remaining, ?_, ?_, by simpa using hholds, hle', ?_⟩
      · simp only [assignExplicitDpRanks, hslot, hrun]
      · exact hperm.cons reqItem
      · intro j item hitem
        exact hkeep j item (mem_assigned_place hp hk' hitem)

theorem assignExplicitDpRanks_append (reqs rest : List RequestQueueItem)
    (htarget : ∀ item ∈ reqs, ∃ k : ℕ, item.targetDpRank = some (k : ℤ) ∧ k < loads.length)
    (hfit : ∀ k, p.loads.getD k 0 + reqs.countP (fun item => item.targetDpRank = some (k : ℤ)) ≤ cap) :
    ∃ p', assignExplicitDpRanks cap p (reqs ++ rest) =
        assignExplicitDpRanks cap p' rest ∧
      Placement.Holds loads (items ++ reqs) p' ∧ (∀ k, p'.loads.getD k 0 ≤ cap) ∧
      (∀ k, ∀ item ∈ p.assigned.getD k [], item ∈ p'.assigned.getD k []) ∧
      ∀ item ∈ reqs, ∀ k : ℕ, item.targetDpRank = some (k : ℤ) → item ∈ p'.assigned.getD k [] := by
  induction reqs generalizing p items with
  | nil => exact ⟨p, rfl, by simpa using hp, by simpa using hfit, fun _ _ h => h, by simp⟩
  | cons reqItem reqs ih =>
    obtain ⟨k, hk, hlt⟩ := htarget reqItem (.head _)
    have hlt' : k < p.loads.length := hlt.trans_eq hp.length_loads.symm
    have hroom : p.loads.getD k 0 < cap := by
      have hcount := hfit k
      rw [countP_cons_of_pos (by simpa using hk)] at hcount
      omega
    have hslot : explicitSlot p.loads cap reqItem.targetDpRank = .ok (some k) := by
      simp only [hk, explicitSlot, pyIndex_natCast hlt', hroom, Int.natCast_nonneg, if_true]
    have hfit' : ∀ j, (p.place k reqItem).loads.getD j 0 +
        reqs.countP (fun item => item.targetDpRank = some (j : ℤ)) ≤ cap := by
      intro j
      have hcount := hfit j
      rw [Placement.place, getD_bump hlt']
      by_cases hkj : k = j
      · subst hkj
        rw [countP_cons_of_pos (by simpa using hk)] at hcount
        rw [if_pos rfl]
        omega
      · rw [countP_cons_of_neg (by simpa [hk] using hkj)] at hcount
        rw [if_neg hkj]
        exact hcount
    obtain ⟨p', hrun, hholds, hle, hkeep, hmem⟩ := ih (hp.place hlt reqItem) (forall_mem_cons.1 htarget).2 hfit'
    refine ⟨p', ?_, by simpa using hholds, hle, ?_, ?_⟩
    · simp only [cons_append, assignExplicitDpRanks, hslot, hrun]
    · intro j item hitem
      exact hkeep j item (mem_assigned_place hp hlt hitem)
    intro item hitem j hj
    rcases mem_cons.1 hitem with rfl | hitem
    · obtain rfl : k = j := by simpa [hk] using hj
      refine hkeep k item ?_
      rw [Placement.getD_assigned_place (hlt.trans_eq hp.length_assigned.symm), if_pos rfl]
      exact mem_append_right _ (.head _)
    · exact hmem item hitem j hj

end Explicit

/-! ### What was fetched -/

section Fetched

variable {limit : ℤ} {cap : ℕ} {q : WaitingQueue}

/-- Strict requests are counted on their ranks as they are fetched. -/
structure StrictCounted (loads : List ℕ) (maxNumActiveRequests : ℕ) (st : Fetch) : Prop where
  length : st.loads.length = loads.length
  load : ∀ k, st.loads.getD k 0 = loads.getD k 0 + st.items.countP fun item => item.strictRank = some (k : ℤ)
  le : ∀ k, st.loads.getD k 0 ≤ maxNumActiveRequests

theorem StrictCounted.judged {st : Fetch} (h : StrictCounted loads cap st) {queue : WaitingQueue}
    {item : RequestQueueItem} {verdict : Bool} (hvalid : ∀ rank ∈ item.strictRank, 0 ≤ rank ∧ rank < loads.length)
    (hverdict : Verdict true cap st.loads item verdict loads') :
    StrictCounted loads cap (st.judged queue item verdict loads') := by
  cases hverdict with
  | free hfree =>
    refine ⟨h.length, fun k => ?_, h.le⟩
    simp only [Fetch.judged, if_true, countP_append, countP_singleton, hfree rfl]
    simpa using h.load k
  | full => exact ⟨h.length, h.load, h.le⟩
  | @placed rank k _ hrank hk hlt =>
    have hrange := hvalid rank hrank
    obtain rfl : rank = (k : ℤ) := by
      have heq : pyIndex st.loads.length rank = some rank.toNat := by
        obtain ⟨j, rfl⟩ := Int.eq_ofNat_of_zero_le hrange.1
        exact pyIndex_natCast (by rw [h.length]; omega)
      rw [heq] at hk
      simp only [Option.some.injEq] at hk
      omega
    have hlt' := pyIndex_lt hk
    refine ⟨length_bump.trans h.length, fun j => ?_, getD_bump_le hlt' hlt h.le⟩
    simp only [Fetch.judged, if_true, countP_append, countP_singleton, hrank, getD_bump hlt']
    have hload := h.load j
    by_cases hkj : k = j
    · subst hkj
      simp only [if_true, decide_true]
      omega
    · rw [if_neg hkj, if_neg (by simpa using hkj)]
      omega

theorem fetchLoop_strictCounted (hpos : 0 ≤ limit) (hle : ∀ k, loads.getD k 0 ≤ cap)
    (hvalid : ∀ item ∈ q.order, ∀ rank ∈ item.strictRank, 0 ≤ rank ∧ rank < loads.length) :
    Ends (fetchLoop limit true cap q loads)
      (fun _ st => (∃ popped, Popping limit true q loads.length popped st) ∧
        StrictCounted loads cap st) fun _ _ => False := by
  refine .whileTrue (fun st => (∃ popped, Popping limit true q loads.length popped st) ∧
    StrictCounted loads cap st) (fun st => st.queue.order.length) ?_ (Nat.lt_succ_self _)
    ⟨⟨[], .start hpos⟩, rfl, by simp, hle⟩
  rintro st ⟨⟨popped, hpopping⟩, hcounted⟩
  have hmem : ∀ {item : RequestQueueItem} {queue : WaitingQueue}, st.queue.order = item :: queue.order → item ∈ q.order := by
    intro item queue horder
    rw [hpopping.order, horder]
    exact mem_append_right _ (.head _)
  refine fetchRound_ends st (fun _ => ⟨⟨popped, hpopping⟩, hcounted⟩) ?_ ?_
  · intro item queue verdict loads' horder hpolicy hfits hgood hverdict
    exact ⟨⟨popped ++ [item], hpopping.judged horder hpolicy hfits hgood hverdict⟩,
      hcounted.judged (hvalid item (hmem horder)) hverdict⟩
  · rintro item queue horder - - ⟨rank, hrank, hnone⟩
    have hrange := hvalid item (hmem horder) rank hrank
    have hsome := pyIndex_isSome_iff.2 ⟨by omega, hrange.2⟩
    rw [hcounted.length] at hnone
    simp [hnone] at hsome

theorem getFromWaitingQueue_strict (limit : ℤ) (q : WaitingQueue) (hle : ∀ k, loads.getD k 0 ≤ cap)
    (hvalid : ∀ item ∈ q.order, ∀ rank ∈ item.strictRank, 0 ≤ rank ∧ rank < loads.length) :
    ∃ items queue, getFromWaitingQueue limit true cap q (some loads) = (.ok items, queue) ∧
      items ⊆ q.order ∧ weight items ≤ limit.toNat ∧
      ∀ k, loads.getD k 0 + items.countP (fun item => item.strictRank = some (k : ℤ)) ≤ cap := by
  by_cases hnonpos : limit ≤ 0
  · exact ⟨[], q, if_pos hnonpos, by simp, by simp [weight], by simpa using hle⟩
  obtain ⟨a, st, hloop, ⟨popped, hpopping⟩, hcounted⟩ :=
    (fetchLoop_strictCounted (by omega : 0 ≤ limit) hle hvalid).exists_ok
  refine ⟨st.items, st.queue.prependRequests st.pendingRequests, ?_, ?_, ?_, ?_⟩
  · simp [getFromWaitingQueue, hnonpos, hloop]
  · intro item hitem
    rw [hpopping.order]
    exact mem_append_left _ (hpopping.perm.mem_iff.2 (mem_append_left _ hitem))
  · have hcount := hpopping.count_le
    rw [hpopping.count] at hcount
    omega
  · intro k
    rw [← hcounted.load k]
    exact hcounted.le k

end Fetched

/-! ### Routing what was fetched -/

theorem countP_strict (items : List RequestQueueItem) (k : ℕ) :
    (items.filter fun item => item.relaxValue = false).countP (fun item => item.targetDpRank = some (k : ℤ)) =
      items.countP fun item => item.strictRank = some (k : ℤ) := by
  rw [countP_filter]
  refine countP_congr fun item _ => ?_
  simp only [Bool.and_eq_true, decide_eq_true_eq]
  constructor
  · rintro ⟨htarget, hrelax⟩
    obtain ⟨rank, hrank⟩ := relaxValue_eq_false_iff.1 hrelax
    rw [targetDpRank_of_strictRank hrank] at htarget
    rw [hrank, htarget]
  · intro hstrict
    exact ⟨targetDpRank_of_strictRank hstrict, relaxValue_eq_false_iff.2 ⟨_, hstrict⟩⟩

theorem expected_spec {numNew cap : ℕ} (hranks : loads ≠ []) (hround : ∀ k ≤ cap, round k = .finite k)
    (hle : ∀ k, loads.getD k 0 ≤ cap) (hbudget : loads.sum + numNew ≤ loads.length * cap) :
    ∃ want, expectedNumActiveRequests round loads numNew (.finite 1) (some cap) = .ok want ∧
      fairShare loads numNew ≤ want ∧ (∀ k, loads.getD k 0 ≤ want) ∧ want ≤ cap := by
  have hshare := fairShare_le hranks hbudget
  refine ⟨min (max (fairShare loads numNew) (busiest loads)) cap, ?_, ?_, ?_, min_le_right _ _⟩
  · unfold expectedNumActiveRequests
    rw [if_neg (by simpa using hranks), ceilProduct_one (hround _ hshare)]
    simp only [Option.elim, ← Nat.cast_max, Int.toNat_natCast]
  · exact le_min (le_max_left _ _) hshare
  · intro k
    exact le_min ((le_busiest k).trans (le_max_right _ _)) (hle k)

theorem weight_eq_length (hchildless : ∀ item ∈ items, item.numChildren = 0) : weight items = items.length := by
  induction items with
  | nil => rfl
  | cons item items ih =>
    have hhead := hchildless item (.head _)
    have htail := ih (forall_mem_cons.1 hchildless).2
    simp only [weight, map_cons, sum_cons, length_cons] at htail ⊢
    omega

theorem routeRequests_spec {states : List RankState}
    {cap : ℕ} (hloads : loads = states.map (·.numActiveRequests)) (hranks : loads ≠ [])
    (hle : ∀ k, loads.getD k 0 ≤ cap)
    (hvalid : ∀ item ∈ items, ∀ rank ∈ item.targetDpRank, 0 ≤ rank ∧ rank < loads.length)
    (hstrict : ∀ k, loads.getD k 0 + items.countP (fun item => item.strictRank = some (k : ℤ)) ≤ cap)
    (hbudget : loads.sum + items.length ≤ loads.length * cap)
    (hround : ∀ k ≤ cap, round k = .finite k) :
    ∃ p want, routeRequests round states items cap = .ok (p.assigned, want) ∧
      Placement.Holds loads items p ∧
      (∀ item ∈ items, ∀ rank, item.strictRank = some rank → ∃ k : ℕ, rank = k ∧ item ∈ p.assigned.getD k []) ∧
      ∀ k, p.loads.getD k 0 ≤ cap ∧ p.loads.getD k 0 ≤ want := by
  have htarget : ∀ item ∈ items, ∀ rank, item.strictRank = some rank →
      ∃ k : ℕ, rank = k ∧ item.targetDpRank = some (k : ℤ) ∧ k < loads.length := by
    intro item hitem rank hrank
    have hsome := targetDpRank_of_strictRank hrank
    have hrange := hvalid item hitem rank hsome
    obtain ⟨k, rfl⟩ := Int.eq_ofNat_of_zero_le hrange.1
    exact ⟨k, rfl, hsome, by omega⟩
  -- strict requests come first and find room
  obtain ⟨p₁, hrun₁, hholds₁, hle₁, -, hplaced₁⟩ := assignExplicitDpRanks_append (.start loads)
    (items.filter fun item => item.relaxValue = false) (items.filter fun item => ¬ item.relaxValue = false) (by
      intro item hitem
      obtain ⟨hitem, hrelax⟩ := mem_filter.1 hitem
      obtain ⟨rank, hrank⟩ := relaxValue_eq_false_iff.1 (of_decide_eq_true hrelax)
      obtain ⟨k, -, hk, hlt⟩ := htarget item hitem rank hrank
      exact ⟨k, hk, hlt⟩)
    (by
      intro k
      rw [countP_strict]
      exact hstrict k)
  obtain ⟨p₂, placed, remaining, hrun₂, hperm₂, hholds₂, hle₂, hkeep₂⟩ := assignExplicitDpRanks_spec hholds₁
    (items.filter fun item => ¬ item.relaxValue = false)
    (fun item hitem => hvalid item (mem_of_mem_filter hitem)) hle₁
  have hsort : (items.filter (fun item => item.relaxValue = false) ++ placed ++ remaining).Perm items := by
    rw [append_assoc]
    exact (hperm₂.append_left _).trans (sortByRelax_perm _ items)
  -- what is left fits under the fair share
  have hbudget₂ : p₂.loads.sum + remaining.length ≤ p₂.loads.length * cap := by
    have hsum := hholds₂.sum_loads
    have hlength := hsort.length_eq
    simp only [nil_append, length_append] at hsum hlength
    rw [hholds₂.length_loads]
    omega
  have hranks₂ : p₂.loads ≠ [] := by
    rw [← length_pos_iff, hholds₂.length_loads, length_pos_iff]
    exact hranks
  obtain ⟨want, hexpected, hshare, hbusy, hcap⟩ := expected_spec hranks₂ hround hle₂ hbudget₂
  obtain ⟨p, hrun, hholds, hle', hkeep⟩ := balanceRequestsAcrossRanks_spec hholds₂
    (states.map (·.numActiveTokens)) (le_room_of_fairShare_le hranks₂ hshare)
  refine ⟨p, want, ?_, hholds.perm_items hsort, ?_, ?_⟩
  · subst hloads
    simp only [routeRequests, sortByRelax, hrun₁, hrun₂, hexpected, hrun]
  · intro item hitem rank hrank
    obtain ⟨k, rfl, hk, -⟩ := htarget item hitem rank hrank
    refine ⟨k, rfl, hkeep k item (hkeep₂ k item (hplaced₁ item ?_ k hk))⟩
    exact mem_filter.2 ⟨hitem, decide_eq_true (relaxValue_eq_false_iff.2 ⟨_, hrank⟩)⟩
  · intro k
    have hend := hle' k
    rw [max_eq_left (hbusy k)] at hend
    exact ⟨hend.trans hcap, hend⟩

/-- With the budget that all ranks leave together, routing what was fetched succeeds: strict requests get their ranks,
and every load ends within the cap and the returned target. -/
theorem routeRequests_fetched (round : ℚ → PyFloat) (q : WaitingQueue) (allRankStates : List RankState)
    (maxNumActiveRequests : ℕ) (hranks : allRankStates ≠ [])
    (hloads : ∀ state ∈ allRankStates, state.numActiveRequests ≤ maxNumActiveRequests)
    (hchildless : ∀ item ∈ q.order, item.numChildren = 0)
    (hvalid : ∀ item ∈ q.order, ∀ rank ∈ item.targetDpRank, 0 ≤ rank ∧ rank < allRankStates.length)
    (hround : ∀ k ≤ maxNumActiveRequests, round k = .finite k) :
    ∃ items queue allRanksNewRequests expected,
      getFromWaitingQueue (allRankStates.length * maxNumActiveRequests - (allRankStates.map (·.numActiveRequests)).sum)
          true maxNumActiveRequests q (some (allRankStates.map (·.numActiveRequests))) = (.ok items, queue) ∧
        routeRequests round allRankStates items maxNumActiveRequests = .ok (allRanksNewRequests, expected) ∧
        allRanksNewRequests.length = allRankStates.length ∧ allRanksNewRequests.flatten.Perm items ∧
        (∀ item ∈ items, ∀ rank, item.strictRank = some rank → ∃ k : ℕ, rank = k ∧ item ∈ allRanksNewRequests.getD k []) ∧
        ∀ k < allRankStates.length,
          (allRankStates.map (·.numActiveRequests)).getD k 0 + (allRanksNewRequests.getD k []).length ≤
              maxNumActiveRequests ∧
            (allRankStates.map (·.numActiveRequests)).getD k 0 + (allRanksNewRequests.getD k []).length ≤ expected := by
  set loads := allRankStates.map (·.numActiveRequests) with hdef
  have hlength : loads.length = allRankStates.length := by simp [hdef]
  have hle : ∀ k, loads.getD k 0 ≤ maxNumActiveRequests := getD_numActiveRequests_le hloads
  rw [← hlength] at hvalid ⊢
  have hranks' : loads ≠ [] := by simpa [hdef] using hranks
  have hfit := room_add_sum_of_le hle
  obtain ⟨items, queue, hget, hsub, hweight, hstrict⟩ := getFromWaitingQueue_strict
    (loads.length * maxNumActiveRequests - loads.sum) q hle
    fun item hitem rank hrank =>
      hvalid item hitem rank (targetDpRank_of_strictRank hrank)
  rw [weight_eq_length fun item hitem => hchildless item (hsub hitem)] at hweight
  have hbudget : loads.sum + items.length ≤ loads.length * maxNumActiveRequests := by
    omega
  obtain ⟨p, expected, hroute, hholds, hplaced, hend⟩ := routeRequests_spec hdef hranks' hle
    (fun item hitem => hvalid item (hsub hitem)) hstrict hbudget hround
  refine ⟨items, queue, p.assigned, expected, hget, hroute, hholds.length_assigned, hholds.perm, hplaced, ?_⟩
  intro k hk
  rw [← hholds.load k hk]
  exact hend k

theorem routeRequests_fetched_two_ranks :
    ∃ items queue allRanksNewRequests expected,
      getFromWaitingQueue 3 true 2 (.fcfs [.forRank 1 0 false, .forRank 2 1 true]) (some [0, 1]) =
          (.ok items, queue) ∧
        routeRequests PyFloat.finite [⟨0, 0⟩, ⟨1, 5⟩] items 2 = .ok (allRanksNewRequests, expected) ∧
        allRanksNewRequests.flatten.Perm items := by
  obtain ⟨items, queue, allRanksNewRequests, expected, hget, hroute, -, hperm, -⟩ :=
    routeRequests_fetched .finite (.fcfs [.forRank 1 0 false, .forRank 2 1 true]) [⟨0, 0⟩, ⟨1, 5⟩] 2
      (by decide) (by decide) (by decide) (by decide) (fun _ _ => rfl)
  exact ⟨items, queue, allRanksNewRequests, expected, hget, hroute, hperm⟩

end DefaultADPRouter

end TrtLlm.Scheduler
