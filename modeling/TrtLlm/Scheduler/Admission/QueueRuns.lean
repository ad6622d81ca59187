import TrtLlm.Scheduler.Admission.Fetch

/-!
# Runs of a waiting queue

Every sequence of calls on a waiting queue. Next to the queue a run records which requests were added, handed out
and removed. A call that raises keeps what it did to the queue before.
-/

namespace TrtLlm.Scheduler

open List WaitingQueue

inductive QueueCall where
  | addRequest (request : RequestQueueItem)
  | addRequests (requests : List RequestQueueItem)
  | peekRequest
  | popRequest
  | removeByIds (requestIds : List ℕ)
  | getFromWaitingQueue (maxReqCount : ℤ) (enableAttentionDp : Bool) (maxNumActiveRequests : ℕ)
      (allRanksNumActiveRequests : Option (List ℕ))

structure QueueRun where
  queue : WaitingQueue
  added : List RequestQueueItem
  handedOut : List RequestQueueItem
  removed : List RequestQueueItem

namespace QueueRun

def start (policy : WaitingQueuePolicy) : QueueRun := ⟨.create policy, [], [], []⟩

variable (s : QueueRun)

def step : QueueCall → QueueRun
  | .addRequest request => { s with queue := s.queue.addRequest request, added := s.added ++ [request] }
  | .addRequests requests => { s with queue := s.queue.addRequests requests, added := s.added ++ requests }
  | .peekRequest => s
  | .popRequest =>
    match s.queue.popRequest with
    | .ok (item, queue) => { s with queue, handedOut := s.handedOut ++ [item] }
    | .error _ => s
  | .removeByIds requestIds =>
    { s with
      queue := s.queue.removeByIds requestIds
      removed := s.removed ++ s.queue.order.filter fun item => item.id ∈ requestIds }
  | .getFromWaitingQueue maxReqCount enableAttentionDp maxNumActiveRequests allRanksNumActiveRequests =>
    match getFromWaitingQueue maxReqCount enableAttentionDp maxNumActiveRequests s.queue allRanksNumActiveRequests with
    | (.ok items, queue) => { s with queue, handedOut := s.handedOut ++ items }
    | (.error _, queue) => { s with queue }

def run (calls : List QueueCall) : QueueRun := calls.foldl step s

def waiting : List RequestQueueItem := popAll s.queue.order.length s.queue

/-- Every added request was handed out, removed or waits, once; those waiting are served by the policy and then in the
order in which they were added. -/
structure Accounted : Prop where
  conserved : (s.handedOut ++ s.removed ++ s.waiting).Perm s.added
  serves : Serves s.queue.policy.rank s.added s.waiting

/-- The requests that a call of `get_from_waiting_queue` pops, also those it puts back. -/
def pops (maxReqCount : ℤ) (enableAttentionDp : Bool) (maxNumActiveRequests : ℕ) (loads : List ℕ) :
    List RequestQueueItem :=
  match fetchLoop maxReqCount enableAttentionDp maxNumActiveRequests s.queue loads with
  | .ok _ st => s.queue.order.take (s.queue.order.length - st.queue.order.length)
  | .error _ st => s.queue.order.take (s.queue.order.length - st.queue.order.length)

/-- Under attention DP no popped request insists on a rank that is no index of the loads. -/
def RanksValid : QueueCall → Prop
  | .getFromWaitingQueue maxReqCount enableAttentionDp maxNumActiveRequests allRanksNumActiveRequests =>
    0 < maxReqCount → enableAttentionDp = true → ∀ loads ∈ allRanksNumActiveRequests,
      ∀ item ∈ s.pops maxReqCount enableAttentionDp maxNumActiveRequests loads, ¬ BadRank loads.length item
  | _ => True

def RanksValidAlong : QueueRun → List QueueCall → Prop
  | _, [] => True
  | s, call :: calls => s.RanksValid call ∧ RanksValidAlong (s.step call) calls

variable {s}

theorem waiting_eq : s.waiting = s.queue.order := popAll_eq_order le_rfl

theorem accounted_iff : s.Accounted ↔
    (s.handedOut ++ s.removed ++ s.queue.order).Perm s.added ∧ Serves s.queue.policy.rank s.added s.queue.order := by
  constructor
  · intro h
    exact ⟨by simpa [waiting_eq] using h.conserved, by simpa [waiting_eq] using h.serves⟩
  · intro h
    exact ⟨by simpa [waiting_eq] using h.1, by simpa [waiting_eq] using h.2⟩

theorem accounted_start (policy : WaitingQueuePolicy) : (start policy).Accounted := by
  rw [accounted_iff]
  simp [start, order_create, Serves.nil]

theorem Accounted.addRequests (h : s.Accounted) (reqs : List RequestQueueItem) :
    (s.step (.addRequests reqs)).Accounted := by
  obtain ⟨hperm, hserves⟩ := accounted_iff.1 h
  refine accounted_iff.2 ⟨?_, ?_⟩
  · refine ((perm_of_filter_eq (s.queue.order_addRequests_filter reqs)).append_left _).trans ?_
    rw [← append_assoc]
    exact hperm.append_right reqs
  · have hsorted := (s.queue.addRequests reqs).order_sorted
    rw [policy_addRequests] at hsorted
    simpa only [step, policy_addRequests] using hserves.arrive hsorted (order_addRequests_filter reqs)

theorem Accounted.popRequest (h : s.Accounted) : (s.step .popRequest).Accounted := by
  obtain ⟨hperm, hserves⟩ := accounted_iff.1 h
  rcases s.queue.pop_cases with ⟨-, -, ⟨e, hpop⟩⟩ | ⟨item, rest, -, hpop, horder, hpolicy⟩
  · simpa only [step, hpop] using h
  simp only [step, hpop]
  rw [horder] at hperm hserves
  refine accounted_iff.2 ⟨?_, ?_⟩
  · refine .trans ?_ hperm
    simp only [append_assoc, singleton_append]
    exact (perm_middle.symm).append_left s.handedOut
  · rw [hpolicy]
    exact hserves.sublist (sublist_cons_self item _)

theorem Accounted.removeByIds (h : s.Accounted) (ids : List ℕ) : (s.step (.removeByIds ids)).Accounted := by
  obtain ⟨hperm, hserves⟩ := accounted_iff.1 h
  refine accounted_iff.2 ⟨?_, ?_⟩
  · refine .trans ?_ hperm
    simp only [step, order_removeByIds, append_assoc]
    refine ((List.Perm.trans ?_ (filter_append_perm (fun item => item.id ∈ ids) s.queue.order)).append_left
      s.removed).append_left s.handedOut
    simp
  · simp only [step, policy_removeByIds, order_removeByIds]
    exact hserves.sublist filter_sublist

section GetFromWaitingQueue

variable {limit : ℤ} {adp : Bool} {cap : ℕ} {active : Option (List ℕ)}

variable {popped : List RequestQueueItem} {st : Fetch} {numRanks : ℕ} {item : RequestQueueItem} {loads : List ℕ}

theorem Accounted.of_popping (h : s.Accounted)
    (hpopping : Popping limit adp s.queue numRanks popped st) :
    Accounted { s with
      queue := st.queue.prependRequests st.pendingRequests
      handedOut := s.handedOut ++ st.items } := by
  obtain ⟨hperm, hserves⟩ := accounted_iff.1 h
  rw [hpopping.order] at hperm hserves
  refine accounted_iff.2 ⟨?_, ?_⟩
  · calc
      (s.handedOut ++ st.items ++ s.removed ++ (st.queue.prependRequests st.pendingRequests).order).Perm
          (s.handedOut ++ st.items ++ s.removed ++ (st.pendingRequests ++ st.queue.order)) :=
        (perm_of_filter_eq (st.queue.order_prependRequests_filter _)).append_left _
      _ |>.Perm (s.handedOut ++ s.removed ++ (st.items ++ (st.pendingRequests ++ st.queue.order))) := by
        simp only [append_assoc]
        exact (perm_append_comm_assoc _ _ _).append_left _
      _ |>.Perm (s.handedOut ++ s.removed ++ (popped ++ st.queue.order)) := by
        rw [← append_assoc st.items]
        exact (hpopping.perm.symm.append_right _).append_left _
      _ |>.Perm s.added := hperm
  · have hsorted := (st.queue.prependRequests st.pendingRequests).order_sorted
    have hclass := st.queue.order_prependRequests_filter st.pendingRequests
    simp only [policy_prependRequests, hpopping.policy] at hsorted hclass ⊢
    exact hserves.putBack (hpopping.pending.append_right _) hsorted hclass

theorem pops_of_error {e : QueueError}
    (hloop : fetchLoop limit adp cap s.queue loads = .error e st)
    (horder : s.queue.order = popped ++ item :: st.queue.order) :
    s.pops limit adp cap loads = popped ++ [item] := by
  have hlength : s.queue.order.length - st.queue.order.length = (popped ++ [item]).length := by
    simp only [horder, length_append, length_cons, length_nil]
    omega
  simp only [pops, hloop, hlength]
  rw [horder, append_cons popped item st.queue.order, take_left]

/-- The call keeps the account exactly if it pops no request with a bad strict rank. -/
theorem Accounted.getFromWaitingQueue_iff (h : s.Accounted) (limit : ℤ) (adp : Bool)
    (cap : ℕ) (active : Option (List ℕ)) :
    (s.step (.getFromWaitingQueue limit adp cap
        active)).Accounted ↔
      s.RanksValid (.getFromWaitingQueue limit adp cap active) := by
  have houtcome := getFromWaitingQueue_outcome limit adp cap s.queue active
  simp only [step]
  generalize getFromWaitingQueue limit adp cap s.queue active = result at houtcome
  cases houtcome with
  | nothing hnonpos =>
    have hsame : Accounted { s with handedOut := s.handedOut ++ [] } := by simpa using h
    exact iff_of_true hsame fun hpos => absurd hpos hnonpos.not_gt
  | noLoads hdp hnone => exact iff_of_true h fun _ _ loads hloads => by simp [hnone] at hloads
  | fetched hpos hloop hpopping =>
    refine iff_of_true (h.of_popping hpopping) fun _ hdp loads hloads item hitem => ?_
    rw [Option.mem_def.1 hloads, Option.getD_some] at hloop hpopping
    exact hpopping.ranks hdp item (by simpa [pops, hloop, hpopping.order] using hitem)
  | badRank hpos hdp hloads hloop horder hbad =>
    refine iff_of_false (fun hafter => ?_) fun hvalid => ?_
    · have hbefore := (accounted_iff.1 h).1.length_eq
      have hlength := (accounted_iff.1 hafter).1.length_eq
      simp only [horder, length_append, length_cons] at hbefore hlength
      omega
    refine hvalid hpos hdp _ (Option.mem_def.2 hloads) _ ?_ hbad
    rw [pops_of_error hloop horder]
    exact mem_append_right _ (.head _)

end GetFromWaitingQueue

/-- Only a bad strict rank lets a call lose requests. -/
theorem Accounted.step_iff (h : s.Accounted) (call : QueueCall) : (s.step call).Accounted ↔ s.RanksValid call := by
  cases call with
  | addRequest request => exact iff_of_true (h.addRequests [request]) trivial
  | addRequests reqs => exact iff_of_true (h.addRequests reqs) trivial
  | peekRequest => exact iff_of_true h trivial
  | popRequest => exact iff_of_true h.popRequest trivial
  | removeByIds ids => exact iff_of_true (h.removeByIds ids) trivial
  | getFromWaitingQueue limit adp cap active =>
    exact h.getFromWaitingQueue_iff limit adp cap active

theorem Accounted.run (h : s.Accounted) {calls : List QueueCall} (hranks : RanksValidAlong s calls) :
    (s.run calls).Accounted := by
  induction calls generalizing s with
  | nil => exact h
  | cons call calls ih => exact ih ((h.step_iff call).2 hranks.1) hranks.2

/-- While strict ranks are valid nothing is lost and the order is kept, and a call that pops a bad strict rank does
lose a request. -/
theorem queueRun_accounted_iff (policy : WaitingQueuePolicy) (calls : List QueueCall)
    (hranks : RanksValidAlong (start policy) calls) :
    ((start policy).run calls).Accounted ∧
      (∀ call, (((start policy).run calls).step call).Accounted ↔ ((start policy).run calls).RanksValid call) ∧
      ∀ maxReqCount enableAttentionDp maxNumActiveRequests allRanksNumActiveRequests items queue,
        getFromWaitingQueue maxReqCount enableAttentionDp maxNumActiveRequests ((start policy).run calls).queue
          allRanksNumActiveRequests = (.ok items, queue) → weight items ≤ maxReqCount.toNat := by
  have hrun := (accounted_start policy).run hranks
  refine ⟨hrun, hrun.step_iff, fun limit adp cap active items queue hget => ?_⟩
  have houtcome := getFromWaitingQueue_outcome limit adp cap ((start policy).run calls).queue active
  rw [hget] at houtcome
  cases houtcome with
  | nothing => simp [weight]
  | fetched hpos hloop hpopping =>
    have hle := hpopping.count_le
    rw [hpopping.count] at hle
    omega

/-- Two requests for rank 0, which has room for one, and a later one for rank 1. -/
def twoRankCalls : List QueueCall :=
  [.addRequests [.forRank 1 0 false, .forRank 2 0 false], .getFromWaitingQueue 2 true 1 (some [0, 0]),
    .addRequest (.forRank 3 1 true)]

theorem queueRun_accounted_two_ranks :
    ((start .priority).run twoRankCalls).Accounted ∧
      ((start .priority).run twoRankCalls).waiting = [.forRank 2 0 false, .forRank 3 1 true] := by
  have hranks : RanksValidAlong (start .priority) twoRankCalls :=
    .intro trivial (.intro (by rintro - - loads ⟨⟩; decide +kernel) (.intro trivial trivial))
  exact ⟨(queueRun_accounted_iff .priority twoRankCalls hranks).1, by decide +kernel⟩

/-- There is one rank and the request insists on rank 1: it is popped, the lookup raises and it is gone. -/
theorem queueRun_loses_request :
    ¬ ((start .fcfs).run [.addRequest (.forRank 1 1 false), .getFromWaitingQueue 1 true 1 (some [0])]).Accounted := by
  intro h
  have hlength := h.conserved.length_eq
  revert hlength
  decide +kernel

end QueueRun

end TrtLlm.Scheduler
