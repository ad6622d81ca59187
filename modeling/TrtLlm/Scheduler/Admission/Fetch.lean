import TrtLlm.Lib.Loads
import TrtLlm.Scheduler.Admission.WaitingQueue

/-!
# Fetching from the waiting queue

`get_from_waiting_queue` pops requests while they fit the budget. Under attention DP a request that insists on a
full rank is set aside and put back in front at the end. An exception in between leaves the queue without the
requests popped so far.
-/

namespace TrtLlm.Scheduler

open RequestQueueItem

structure Fetch where
  queue : WaitingQueue
  reqCount : ℕ
  items : List RequestQueueItem
  pendingRequests : List RequestQueueItem
  loads : List ℕ

/-- The answer, and the loads with a strict request counted on its rank. -/
def canProcessAttentionDpRequest (reqItem : RequestQueueItem) (allRanksNumActiveRequests : List ℕ)
    (maxNumActiveRequests : ℕ) : Except QueueError (Bool × List ℕ) :=
  match reqItem.schedulingParams with
  | none => .ok (true, allRanksNumActiveRequests)
  | some params =>
    match params.attentionDpRank with
    | none => .ok (true, allRanksNumActiveRequests)
    | some targetDpRank =>
      if params.attentionDpRelax then .ok (true, allRanksNumActiveRequests)
      else
        match pyIndex allRanksNumActiveRequests.length targetDpRank with
        | none => .error .listIndexOutOfRange
        | some k =>
          if allRanksNumActiveRequests.getD k 0 < maxNumActiveRequests then
            .ok (true, bump allRanksNumActiveRequests k)
          else .ok (false, allRanksNumActiveRequests)

def weight (items : List RequestQueueItem) : ℕ := (items.map fun item => 1 + item.numChildren).sum

section Loop

variable (maxReqCount : ℤ) (enableAttentionDp : Bool) (maxNumActiveRequests : ℕ)

/-- One round of the loop, `false` when it ends. -/
def fetchRound : EStateM QueueError Fetch Bool := fun st =>
  if st.reqCount < maxReqCount then
    match st.queue.peekRequest with
    | .error _ => .ok false st -- the queue is empty
    | .ok reqItem =>
      if maxReqCount < st.reqCount + 1 + reqItem.numChildren then .ok false st
      else
        match st.queue.popRequest with
        | .error e => .error e st
        | .ok (reqItem, queue) =>
          match if enableAttentionDp then canProcessAttentionDpRequest reqItem st.loads maxNumActiveRequests
            else .ok (true, st.loads) with
          | .error e => .error e { st with queue }
          | .ok (true, loads) =>
            .ok true { st with
              queue, loads
              items := st.items ++ [reqItem]
              reqCount := st.reqCount + (1 + reqItem.numChildren) }
          | .ok (false, loads) =>
            .ok true { st with queue, loads, pendingRequests := st.pendingRequests ++ [reqItem] }
  else .ok false st

/-- Every round pops a request, so the length of the queue bounds their number. -/
def fetchLoop (q : WaitingQueue) (loads : List ℕ) : EStateM.Result QueueError Fetch PUnit :=
  whileTrue (fetchRound maxReqCount enableAttentionDp maxNumActiveRequests) (q.order.length + 1) ⟨q, 0, [], [], loads⟩

/-- The returned requests, or the exception, and the queue afterwards. -/
def getFromWaitingQueue (q : WaitingQueue) (allRanksNumActiveRequests : Option (List ℕ)) :
    Except QueueError (List RequestQueueItem) × WaitingQueue :=
  if maxReqCount ≤ 0 then (.ok [], q)
  else if enableAttentionDp && allRanksNumActiveRequests.isNone then (.error .noneHasNoCopy, q)
  else
    match fetchLoop maxReqCount enableAttentionDp maxNumActiveRequests q (allRanksNumActiveRequests.getD []) with
    | .ok _ st => (.ok st.items, st.queue.prependRequests st.pendingRequests)
    | .error e st => (.error e, st.queue)

end Loop

/-- The verdict on a popped request: it goes to the items or to the pending ones. -/
inductive Verdict (enableAttentionDp : Bool) (maxNumActiveRequests : ℕ) (loads : List ℕ) (item : RequestQueueItem) :
    Bool → List ℕ → Prop where
  | free (h : enableAttentionDp = true → item.strictRank = none) : Verdict _ _ loads item true loads
  | placed {rank : ℤ} {k : ℕ} (hdp : enableAttentionDp = true) (hrank : item.strictRank = some rank)
      (hk : pyIndex loads.length rank = some k) (hlt : loads.getD k 0 < maxNumActiveRequests) :
      Verdict _ _ loads item true (bump loads k)
  | full {rank : ℤ} {k : ℕ} (hdp : enableAttentionDp = true) (hrank : item.strictRank = some rank)
      (hk : pyIndex loads.length rank = some k) (hle : maxNumActiveRequests ≤ loads.getD k 0) :
      Verdict _ _ loads item false loads

/-- A strict rank that is no index of a list with one entry per rank. -/
def BadRank (numRanks : ℕ) (item : RequestQueueItem) : Prop := ∃ rank ∈ item.strictRank, pyIndex numRanks rank = none

instance (numRanks : ℕ) (item : RequestQueueItem) : Decidable (BadRank numRanks item) :=
  inferInstanceAs (Decidable (∃ rank ∈ item.strictRank, pyIndex numRanks rank = none))

variable {limit : ℤ} {adp : Bool} {cap : ℕ}

theorem canProcessAttentionDpRequest_eq (item : RequestQueueItem) (loads : List ℕ) (cap : ℕ) :
    canProcessAttentionDpRequest item loads cap = match item.strictRank with
      | none => .ok (true, loads)
      | some rank =>
        match pyIndex loads.length rank with
        | none => .error .listIndexOutOfRange
        | some k => if loads.getD k 0 < cap then .ok (true, bump loads k) else .ok (false, loads) := by
  unfold canProcessAttentionDpRequest strictRank
  rcases item.schedulingParams with _ | ⟨_ | rank, _ | _⟩ <;> rfl

theorem canProcess_cases (item : RequestQueueItem) (loads : List ℕ) :
    ((adp = true ∧ BadRank loads.length item) ∧
      (if adp then canProcessAttentionDpRequest item loads cap
        else .ok (true, loads)) = .error .listIndexOutOfRange) ∨
    (¬ (adp = true ∧ BadRank loads.length item) ∧ ∃ verdict loads',
      (if adp then canProcessAttentionDpRequest item loads cap
        else .ok (true, loads)) = .ok (verdict, loads') ∧
      Verdict adp cap loads item verdict loads') := by
  cases adp with
  | false => exact .inr ⟨by simp, true, loads, rfl, .free (by simp)⟩
  | true =>
    rw [canProcessAttentionDpRequest_eq]
    cases hstrict : item.strictRank with
    | none => exact .inr ⟨by simp [BadRank, hstrict], true, loads, rfl, .free fun _ => hstrict⟩
    | some rank =>
      dsimp only
      cases hk : pyIndex loads.length rank with
      | none => exact .inl ⟨⟨rfl, rank, hstrict, hk⟩, rfl⟩
      | some k =>
        refine .inr ⟨by simp [BadRank, hstrict, hk], ?_⟩
        by_cases hlt : loads.getD k 0 < cap
        · exact ⟨true, bump loads k, if_pos hlt, .placed rfl hstrict hk hlt⟩
        · exact ⟨false, loads, if_neg hlt, .full rfl hstrict hk (not_lt.1 hlt)⟩

def Fetch.judged (st : Fetch) (queue : WaitingQueue) (item : RequestQueueItem) (verdict : Bool) (loads : List ℕ) : Fetch where
  queue := queue
  reqCount := if verdict then st.reqCount + (1 + item.numChildren) else st.reqCount
  items := if verdict then st.items ++ [item] else st.items
  pendingRequests := if verdict then st.pendingRequests else st.pendingRequests ++ [item]
  loads := loads

theorem fetchRound_ends (st : Fetch) {inv done : Fetch → Prop} {E : QueueError → Fetch → Prop}
    (hdone : (st.queue.order = [] ∨ limit ≤ st.reqCount ∨ ∃ item, st.queue.order.head? = some item ∧
      limit < st.reqCount + 1 + item.numChildren) → done st)
    (hpop : ∀ item queue verdict loads, st.queue.order = item :: queue.order → queue.policy = st.queue.policy →
      st.reqCount + 1 + item.numChildren ≤ limit → ¬ (adp = true ∧ BadRank st.loads.length item) →
        Verdict adp cap st.loads item verdict loads → inv (st.judged queue item verdict loads))
    (hbad : ∀ item queue, st.queue.order = item :: queue.order → queue.policy = st.queue.policy →
      adp = true → BadRank st.loads.length item → E .listIndexOutOfRange { st with queue }) :
    Ends (fetchRound limit adp cap st)
      (fun again t => if again then inv t ∧ t.queue.order.length < st.queue.order.length else done t) E := by
  unfold fetchRound
  split
  · rcases st.queue.pop_cases with ⟨hnil, ⟨e, hpeek⟩, -⟩ | ⟨item, rest, hpeek, hpopped, horder, hpolicy⟩
    · simp only [hpeek]
      exact hdone (.inl hnil)
    simp only [hpeek, hpopped]
    split
    · rename_i hbig
      exact hdone (.inr (.inr ⟨item, by simp [horder], hbig⟩))
    rename_i hfits
    have hshorter : rest.order.length < st.queue.order.length := by simp [horder]
    rcases canProcess_cases item st.loads with ⟨⟨hdp, hbadRank⟩, herror⟩ | ⟨hgood, verdict, loads, hok, hverdict⟩
    · rw [herror]
      exact hbad item rest horder hpolicy hdp hbadRank
    rw [hok]
    have hinv := hpop item rest verdict loads horder hpolicy (not_lt.1 hfits) hgood hverdict
    cases verdict with
    | true => exact ⟨hinv, hshorter⟩
    | false => exact ⟨hinv, hshorter⟩
  · rename_i hfull
    exact hdone (.inr (.inl (not_lt.1 hfull)))

variable {loads' : List ℕ} {item : RequestQueueItem} {verdict : Bool}

theorem Verdict.length_eq {loads : List ℕ}
    (h : Verdict adp cap loads item verdict loads') : loads'.length = loads.length := by
  cases h <;> simp

/-- Where the loop stands after it popped `popped` from `q`. -/
structure Popping (maxReqCount : ℤ) (enableAttentionDp : Bool) (q : WaitingQueue) (numRanks : ℕ)
    (popped : List RequestQueueItem) (st : Fetch) : Prop where
  order : q.order = popped ++ st.queue.order
  policy : st.queue.policy = q.policy
  perm : popped.Perm (st.items ++ st.pendingRequests)
  pending : st.pendingRequests.Sublist popped
  count : st.reqCount = weight st.items
  count_le : (st.reqCount : ℤ) ≤ maxReqCount
  loads_length : st.loads.length = numRanks
  ranks : enableAttentionDp = true → ∀ item ∈ popped, ¬ BadRank numRanks item

variable {q : WaitingQueue} {loads : List ℕ}

theorem Popping.start (hpos : 0 ≤ limit) : Popping limit adp q loads.length [] ⟨q, 0, [], [], loads⟩ where
  order := rfl
  policy := rfl
  perm := .refl _
  pending := .refl _
  count := rfl
  count_le := hpos
  loads_length := rfl
  ranks := by simp

theorem Popping.judged {st : Fetch} {popped : List RequestQueueItem} {numRanks : ℕ}
    (h : Popping limit adp q numRanks popped st) {queue : WaitingQueue}
    (horder : st.queue.order = item :: queue.order)
    (hpolicy : queue.policy = st.queue.policy) (hfits : st.reqCount + 1 + item.numChildren ≤ limit)
    (hgood : ¬ (adp = true ∧ BadRank st.loads.length item))
    (hverdict : Verdict adp cap st.loads item verdict loads') :
    Popping limit adp q numRanks (popped ++ [item]) (st.judged queue item verdict loads') where
  order := by rw [h.order, horder, List.append_assoc]; rfl
  policy := hpolicy.trans h.policy
  perm := by
    cases verdict with
    | true =>
      refine (h.perm.append_right [item]).trans ?_
      simp only [Fetch.judged, if_true, List.append_assoc]
      exact (List.perm_append_comm).append_left st.items
    | false =>
      refine (h.perm.append_right [item]).trans ?_
      simp [Fetch.judged]
  pending := by
    cases verdict with
    | true => exact h.pending.trans (List.sublist_append_left popped [item])
    | false => exact h.pending.append (.refl [item])
  count := by
    cases verdict with
    | true => simp [Fetch.judged, weight, h.count]
    | false => simpa [Fetch.judged] using h.count
  count_le := by
    cases verdict with
    | true =>
      simp only [Fetch.judged]
      push_cast
      omega
    | false => simpa [Fetch.judged] using h.count_le
  loads_length := hverdict.length_eq.trans h.loads_length
  ranks := by
    intro hdp
    refine List.forall_mem_append.2 ⟨h.ranks hdp, List.forall_mem_singleton.2 ?_⟩
    rw [← h.loads_length]
    exact fun hbad => hgood ⟨hdp, hbad⟩

/-- The loop ends because nothing more fits, or raises at the first bad strict rank it pops. -/
theorem fetchLoop_ends (adp : Bool) (cap : ℕ) (q : WaitingQueue) (loads : List ℕ)
    (hpos : 0 ≤ limit) :
    Ends (fetchLoop limit adp cap q loads)
      (fun _ st => ∃ popped, Popping limit adp q loads.length popped st)
      (fun e st => e = .listIndexOutOfRange ∧ adp = true ∧ st.queue.policy = q.policy ∧
        ∃ popped item, q.order = popped ++ item :: st.queue.order ∧ BadRank loads.length item) := by
  refine .whileTrue (fun st => ∃ popped, Popping limit adp q loads.length popped st)
    (fun st => st.queue.order.length) ?_ (Nat.lt_succ_self _) ⟨[], .start hpos⟩
  intro st hinv
  obtain ⟨popped, hinv⟩ := hinv
  refine fetchRound_ends st (fun _ => ⟨popped, hinv⟩) ?_ ?_
  · intro item queue verdict loads' horder hpolicy hfits hgood hverdict
    exact ⟨popped ++ [item], hinv.judged horder hpolicy hfits hgood hverdict⟩
  · intro item queue horder hpolicy hdp hbad
    refine ⟨rfl, hdp, hpolicy.trans hinv.policy, popped, item, by rw [hinv.order, horder], ?_⟩
    rwa [← hinv.loads_length]

inductive FetchOutcome (maxReqCount : ℤ) (enableAttentionDp : Bool) (maxNumActiveRequests : ℕ) (q : WaitingQueue)
    (allRanksNumActiveRequests : Option (List ℕ)) : Except QueueError (List RequestQueueItem) × WaitingQueue → Prop where
  | nothing (hnonpos : maxReqCount ≤ 0) : FetchOutcome _ _ _ q _ (.ok [], q)
  | noLoads (hdp : enableAttentionDp = true) (hnone : allRanksNumActiveRequests = none) :
      FetchOutcome _ _ _ q _ (.error .noneHasNoCopy, q)
  | fetched {popped : List RequestQueueItem} {st : Fetch} (hpos : 0 < maxReqCount)
      (hloop : fetchLoop maxReqCount enableAttentionDp maxNumActiveRequests q (allRanksNumActiveRequests.getD []) = .ok ⟨⟩ st)
      (hpopping : Popping maxReqCount enableAttentionDp q (allRanksNumActiveRequests.getD []).length popped st) :
      FetchOutcome _ _ _ q _ (.ok st.items, st.queue.prependRequests st.pendingRequests)
  | badRank {popped : List RequestQueueItem} {item : RequestQueueItem} {loads : List ℕ} {st : Fetch}
      (hpos : 0 < maxReqCount) (hdp : enableAttentionDp = true) (hloads : allRanksNumActiveRequests = some loads)
      (hloop : fetchLoop maxReqCount enableAttentionDp maxNumActiveRequests q loads = .error .listIndexOutOfRange st)
      (horder : q.order = popped ++ item :: st.queue.order) (hbad : BadRank loads.length item) :
      FetchOutcome _ _ _ q _ (.error .listIndexOutOfRange, st.queue)

theorem getFromWaitingQueue_outcome (limit : ℤ) (adp : Bool) (cap : ℕ)
    (q : WaitingQueue) (active : Option (List ℕ)) :
    FetchOutcome limit adp cap q active (getFromWaitingQueue limit adp cap q active) := by
  unfold getFromWaitingQueue
  split
  · rename_i hnonpos
    exact .nothing hnonpos
  split
  · rename_i hnone
    simp only [Bool.and_eq_true, Option.isNone_iff_eq_none] at hnone
    exact .noLoads hnone.1 hnone.2
  · rename_i hsome
    have hends := fetchLoop_ends adp cap q (active.getD []) (by omega : 0 ≤ limit)
    cases hloop : fetchLoop limit adp cap q (active.getD []) with
    | ok a st =>
      rw [hloop] at hends
      obtain ⟨popped, hpopping⟩ := hends
      exact .fetched (by omega) hloop hpopping
    | error e st =>
      rw [hloop] at hends
      obtain ⟨rfl, hdp, -, popped, item, horder, hbad⟩ := hends
      cases active with
      | none => simp [hdp] at hsome
      | some loads => exact .badRank (by omega) hdp rfl hloop horder hbad

end TrtLlm.Scheduler
