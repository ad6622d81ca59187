import Mathlib
import TrtLlm.Lib.Outcome
import TrtLlm.Lib.ServiceOrder

/-!
# Waiting queues

Requests wait in a first-come-first-served queue or in a priority queue (`waiting_queue.py`). `get_from_waiting_queue`
pops them for the next iteration and puts back those whose attention-DP rank is full (`request_utils.py`). A heap of
`heapq` is the sorted list of its entries: the source reads its order by `heappop` only.
-/

namespace TrtLlm.Scheduler

open List

structure SchedulingParams where
  attentionDpRank : Option ℤ
  attentionDpRelax : Bool
  deriving DecidableEq, Repr

/-- The executor request behind a queue item. Its constructor rejects a request without input tokens. -/
structure ExecutorRequest where
  inputTokenIds : List ℕ
  inputTokenIds_ne_nil : inputTokenIds ≠ []
  priority : ℚ
  pySchedulingParams : Option SchedulingParams
  /-- The `conversation_id` of `py_conversation_params`. -/
  conversationId : Option String
  deriving DecidableEq

structure RequestQueueItem where
  id : ℕ
  request : Option ExecutorRequest
  childReqIds : Option (List ℕ)
  deriving DecidableEq

def defaultRequestPriority : ℚ := 1 / 2

inductive QueueError where
  | popFromEmptyDeque
  | popFromEmptyQueue
  | peekFromEmptyQueue
  | listIndexOutOfRange
  | noneHasNoCopy
  deriving DecidableEq, Repr

def QueueError.message : QueueError → String
  | .popFromEmptyDeque => "pop from an empty deque"
  | .popFromEmptyQueue => "pop from an empty queue"
  | .peekFromEmptyQueue => "peek from an empty queue"
  | .listIndexOutOfRange => "list index out of range"
  | .noneHasNoCopy => "'NoneType' object has no attribute 'copy'"

namespace RequestQueueItem

variable (item : RequestQueueItem)

def numChildren : ℕ := (item.childReqIds.getD []).length

def schedulingParams : Option SchedulingParams := item.request.bind (·.pySchedulingParams)

def getPriority : ℚ :=
  match item.request with
  | some request => request.priority
  | none => defaultRequestPriority

def strictRank : Option ℤ :=
  item.schedulingParams.bind fun params => if params.attentionDpRelax then none else params.attentionDpRank

def forRank (id : ℕ) (rank : ℤ) (relax : Bool) : RequestQueueItem :=
  ⟨id, some ⟨[1], by simp, defaultRequestPriority, some ⟨some rank, relax⟩, none⟩, none⟩

def anyRank (id : ℕ) : RequestQueueItem := ⟨id, some ⟨[1], by simp, defaultRequestPriority, none, none⟩, none⟩

end RequestQueueItem

/-! ### The priority queue -/

structure HeapEntry where
  negPriority : ℚ
  counter : ℤ
  item : RequestQueueItem
  deriving DecidableEq

/-- The order of the entries as tuples: the counters differ, so items are never compared. -/
def HeapEntry.Before (a b : HeapEntry) : Prop :=
  a.negPriority < b.negPriority ∨ a.negPriority = b.negPriority ∧ a.counter < b.counter

instance : DecidableRel HeapEntry.Before := fun a b =>
  inferInstanceAs (Decidable (a.negPriority < b.negPriority ∨ a.negPriority = b.negPriority ∧ a.counter < b.counter))

theorem HeapEntry.Before.trans (a b c : HeapEntry) (hab : a.Before b) (hbc : b.Before c) : a.Before c := by
  rcases hab with hab | ⟨hab, hab'⟩ <;> rcases hbc with hbc | ⟨hbc, hbc'⟩
  · exact .inl (hab.trans hbc)
  · exact .inl (hbc ▸ hab)
  · exact .inl (hab ▸ hbc)
  · exact .inr ⟨hab.trans hbc, hab'.trans hbc'⟩

/-- The entries of a queue sort by priority and then by counter, and their counters lie strictly between the
two that are issued next. -/
structure PriorityWaitingQueue where
  heap : List HeapEntry
  /-- The next value of `_counter`. -/
  counter : ℤ
  /-- The next value of `_prepend_counter`. -/
  prependCounter : ℤ
  sorted : heap.Pairwise HeapEntry.Before
  keyed : ∀ entry ∈ heap, entry.negPriority = -entry.item.getPriority
  issued : ∀ entry ∈ heap, prependCounter < entry.counter ∧ entry.counter < counter
  apart : prependCounter < counter

namespace PriorityWaitingQueue

variable (q : PriorityWaitingQueue) (item : RequestQueueItem)

def empty : PriorityWaitingQueue where
  heap := []
  counter := 0
  prependCounter := -1
  sorted := List.Pairwise.nil
  keyed := by simp
  issued := by simp
  apart := by decide

def order : List RequestQueueItem := q.heap.map (·.item)

def entry (counter : ℤ) : HeapEntry := ⟨-item.getPriority, counter, item⟩

variable {q item} in
theorem keyed_orderedInsert {counter : ℤ} {e : HeapEntry}
    (he : e ∈ q.heap.orderedInsert HeapEntry.Before (entry item counter)) :
    e.negPriority = -e.item.getPriority := by
  rcases (mem_orderedInsert _).1 he with rfl | he
  · rfl
  · exact q.keyed e he

variable {q item} in
theorem entry_comparable {counter : ℤ} {e : HeapEntry} (hne : e.counter ≠ counter)
    (h : ¬ (entry item counter).Before e) : e.Before (entry item counter) := by
  unfold HeapEntry.Before at h ⊢
  push Not at h
  rcases lt_or_eq_of_le h.1 with hlt | heq
  · exact .inl hlt
  · exact .inr ⟨heq, lt_of_le_of_ne (h.2 heq.symm) hne⟩

def push : PriorityWaitingQueue where
  heap := q.heap.orderedInsert HeapEntry.Before (entry item q.counter)
  counter := q.counter + 1
  prependCounter := q.prependCounter
  sorted := pairwise_orderedInsert HeapEntry.Before.trans q.sorted fun e he =>
    entry_comparable (q.issued e he).2.ne
  keyed := fun _ he => keyed_orderedInsert he
  issued := by
    intro e he
    rcases (mem_orderedInsert _).mp he with rfl | he
    · exact ⟨q.apart, Int.lt_succ _⟩
    · have := q.issued e he
      exact ⟨this.1, by omega⟩
  apart := by
    have := q.apart
    omega

def pushFront : PriorityWaitingQueue where
  heap := q.heap.orderedInsert HeapEntry.Before (entry item q.prependCounter)
  counter := q.counter
  prependCounter := q.prependCounter - 1
  sorted := pairwise_orderedInsert HeapEntry.Before.trans q.sorted fun e he =>
    entry_comparable (q.issued e he).1.ne'
  keyed := fun _ he => keyed_orderedInsert he
  issued := by
    intro e he
    rcases (mem_orderedInsert _).mp he with rfl | he
    · exact ⟨Int.sub_one_lt_of_le le_rfl, q.apart⟩
    · have := q.issued e he
      exact ⟨by omega, this.2⟩
  apart := by
    have := q.apart
    omega

/-- The queue with the entries `heap`, some of those it had. -/
def restrict (heap : List HeapEntry) (hsub : heap.Sublist q.heap) : PriorityWaitingQueue where
  heap := heap
  counter := q.counter
  prependCounter := q.prependCounter
  sorted := q.sorted.sublist hsub
  keyed := fun e he => q.keyed e (hsub.subset he)
  issued := fun e he => q.issued e (hsub.subset he)
  apart := q.apart

def popRequest : Except QueueError (RequestQueueItem × PriorityWaitingQueue) :=
  match hheap : q.heap with
  | [] => .error .popFromEmptyQueue
  | e :: heap => .ok (e.item, q.restrict heap (hheap ▸ sublist_cons_self e heap))

def peekRequest : Except QueueError RequestQueueItem :=
  match q.heap with
  | [] => .error .peekFromEmptyQueue
  | e :: _ => .ok e.item

/-- `add_requests`, and `add_request` for one of them. -/
def addRequests (requests : List RequestQueueItem) : PriorityWaitingQueue := requests.foldl push q

def prependRequests (requests : List RequestQueueItem) : PriorityWaitingQueue := requests.reverse.foldl pushFront q

def removeByIds (requestIds : List ℕ) : PriorityWaitingQueue :=
  q.restrict (q.heap.filter fun e => e.item.id ∉ requestIds) filter_sublist

/-! The order after each operation -/

theorem order_sorted : q.order.Pairwise fun a b => -a.getPriority ≤ -b.getPriority := by
  rw [order, pairwise_map]
  refine q.sorted.imp_of_mem fun {a b} ha hb hab => ?_
  rw [← q.keyed a ha, ← q.keyed b hb]
  exact hab.elim le_of_lt fun h => h.1.le

variable {q item} in
theorem before_iff_of_same {counter : ℤ} {e : HeapEntry} (he : e ∈ q.heap)
    (hsame : item.getPriority = e.item.getPriority) :
    (entry item counter).Before e ↔ counter < e.counter := by
  unfold HeapEntry.Before
  rw [q.keyed e he, ← hsame]
  simp [entry]

variable {q item} in
theorem same_of_filter {counter : ℤ} {e : HeapEntry} {b : ℚ}
    (hitem : ((fun x => decide (-x.getPriority = b)) ∘ HeapEntry.item) (entry item counter) = true)
    (he : ((fun x => decide (-x.getPriority = b)) ∘ HeapEntry.item) e = true) :
    item.getPriority = e.item.getPriority :=
  neg_inj.1 ((of_decide_eq_true hitem).trans (of_decide_eq_true he).symm)

theorem order_push_filter (b : ℚ) : (q.push item).order.filter (fun x => -x.getPriority = b) =
    (q.order ++ [item]).filter fun x => -x.getPriority = b := by
  have horder : q.order ++ [item] = (q.heap ++ [entry item q.counter]).map HeapEntry.item := by simp [order, entry]
  rw [horder, order, filter_map, filter_map]
  refine congrArg (map HeapEntry.item) (filter_orderedInsert_last HeapEntry.Before.trans q.sorted ?_)
  intro hitem e he heb
  rw [before_iff_of_same he (same_of_filter hitem heb)]
  exact (q.issued e he).2.not_gt

theorem order_pushFront_filter (b : ℚ) : (q.pushFront item).order.filter (fun x => -x.getPriority = b) =
    (item :: q.order).filter fun x => -x.getPriority = b := by
  change ((q.heap.orderedInsert _ (entry item q.prependCounter)).map HeapEntry.item).filter _ =
    ((entry item q.prependCounter :: q.heap).map HeapEntry.item).filter _
  rw [filter_map, filter_map]
  refine congrArg (map HeapEntry.item) (filter_orderedInsert_first ?_)
  intro hitem e he heb
  rw [before_iff_of_same he (same_of_filter hitem heb)]
  exact (q.issued e he).1

variable (reqs : List RequestQueueItem)

theorem order_addRequests_filter (b : ℚ) : (q.addRequests reqs).order.filter (fun x => -x.getPriority = b) =
    (q.order ++ reqs).filter fun x => -x.getPriority = b := by
  induction reqs generalizing q with
  | nil => simp [addRequests]
  | cons item reqs ih =>
    change ((q.push item).addRequests reqs).order.filter _ = _
    rw [ih, filter_append, order_push_filter, ← filter_append, append_assoc, singleton_append]

theorem prependRequests_cons : q.prependRequests (item :: reqs) = (q.prependRequests reqs).pushFront item := by
  simp [prependRequests]

theorem order_prependRequests_filter (b : ℚ) : (q.prependRequests reqs).order.filter (fun x => -x.getPriority = b) =
    (reqs ++ q.order).filter fun x => -x.getPriority = b := by
  induction reqs with
  | nil => simp [prependRequests]
  | cons item reqs ih =>
    rw [prependRequests_cons, order_pushFront_filter, filter_cons, ih, cons_append, filter_cons]

theorem order_removeByIds (ids : List ℕ) :
    (q.removeByIds ids).order = q.order.filter fun x => x.id ∉ ids := by
  rw [order, order, filter_map]
  rfl

end PriorityWaitingQueue

inductive WaitingQueuePolicy where
  | fcfs
  | priority
  deriving DecidableEq, Repr

/-- The deque of a `FCFSWaitingQueue`, or a `PriorityWaitingQueue`. -/
inductive WaitingQueue where
  | fcfs (items : List RequestQueueItem)
  | priority (queue : PriorityWaitingQueue)

def WaitingQueuePolicy.rank : WaitingQueuePolicy → RequestQueueItem → ℚ
  | .fcfs, _ => 0
  | .priority, item => -item.getPriority

namespace WaitingQueue

def create : WaitingQueuePolicy → WaitingQueue
  | .fcfs => .fcfs []
  | .priority => .priority .empty

def policy : WaitingQueue → WaitingQueuePolicy
  | .fcfs _ => .fcfs
  | .priority _ => .priority

def order : WaitingQueue → List RequestQueueItem
  | .fcfs items => items
  | .priority queue => queue.order

def addRequests : WaitingQueue → List RequestQueueItem → WaitingQueue
  | .fcfs items, requests => .fcfs (items ++ requests)
  | .priority queue, requests => .priority (queue.addRequests requests)

def addRequest (q : WaitingQueue) (request : RequestQueueItem) : WaitingQueue := q.addRequests [request]

def popRequest : WaitingQueue → Except QueueError (RequestQueueItem × WaitingQueue)
  | .fcfs [] => .error .popFromEmptyDeque
  | .fcfs (item :: items) => .ok (item, .fcfs items)
  | .priority queue => queue.popRequest.map fun popped => (popped.1, .priority popped.2)

def peekRequest : WaitingQueue → Except QueueError RequestQueueItem
  | .fcfs [] => .error .peekFromEmptyQueue
  | .fcfs (item :: _) => .ok item
  | .priority queue => queue.peekRequest

def prependRequests : WaitingQueue → List RequestQueueItem → WaitingQueue
  | .fcfs items, requests => .fcfs (requests ++ items)
  | .priority queue, requests => .priority (queue.prependRequests requests)

def removeByIds : WaitingQueue → List ℕ → WaitingQueue
  | .fcfs items, requestIds => .fcfs (items.filter fun item => item.id ∉ requestIds)
  | .priority queue, requestIds => .priority (queue.removeByIds requestIds)

variable {q q' : WaitingQueue} {item : RequestQueueItem} (reqs : List RequestQueueItem)

theorem order_create (policy : WaitingQueuePolicy) : (create policy).order = [] := by
  cases policy <;> rfl

@[simp] theorem policy_create (policy : WaitingQueuePolicy) : (create policy).policy = policy := by
  cases policy <;> rfl

@[simp] theorem policy_addRequests : (q.addRequests reqs).policy = q.policy := by
  cases q <;> rfl

@[simp] theorem policy_prependRequests : (q.prependRequests reqs).policy = q.policy := by
  cases q <;> rfl

@[simp] theorem policy_removeByIds (ids : List ℕ) : (q.removeByIds ids).policy = q.policy := by
  cases q <;> rfl

theorem pop_cases (q : WaitingQueue) :
    (q.order = [] ∧ (∃ e, q.peekRequest = .error e) ∧ ∃ e, q.popRequest = .error e) ∨
      ∃ item rest, q.peekRequest = .ok item ∧ q.popRequest = .ok (item, rest) ∧ q.order = item :: rest.order ∧
        rest.policy = q.policy := by
  cases q with
  | fcfs items =>
    cases items with
    | nil => exact .inl ⟨rfl, ⟨_, rfl⟩, ⟨_, rfl⟩⟩
    | cons item items => exact .inr ⟨item, .fcfs items, rfl, rfl, rfl, rfl⟩
  | priority queue =>
    obtain ⟨heap, counter, prependCounter, hsorted, hkeyed, hissued, hapart⟩ := queue
    cases heap with
    | nil => exact .inl ⟨rfl, ⟨_, rfl⟩, ⟨_, rfl⟩⟩
    | cons e heap => exact .inr ⟨e.item, _, rfl, rfl, rfl, rfl⟩

/-- The items that `pop_request` returns when it is called until the queue is empty. -/
def popAll : ℕ → WaitingQueue → List RequestQueueItem
  | 0, _ => []
  | n + 1, q =>
    match q.popRequest with
    | .error _ => []
    | .ok (item, rest) => item :: popAll n rest

theorem popAll_eq_order {n : ℕ} (hn : q.order.length ≤ n) : popAll n q = q.order := by
  induction n generalizing q with
  | zero => rw [popAll, length_eq_zero_iff.1 (Nat.le_zero.1 hn)]
  | succ n ih =>
    rcases q.pop_cases with ⟨hnil, -, ⟨e, hpop⟩⟩ | ⟨item, rest, -, hpop, horder, -⟩
    · simp [popAll, hpop, hnil]
    · rw [horder] at hn
      simp only [popAll, hpop, horder]
      rw [ih (by simpa using hn)]

theorem order_removeByIds (ids : List ℕ) :
    (q.removeByIds ids).order = q.order.filter fun x => x.id ∉ ids := by
  cases q with
  | fcfs items => rfl
  | priority queue => exact queue.order_removeByIds ids

theorem order_sorted (q : WaitingQueue) : q.order.Pairwise fun a b => q.policy.rank a ≤ q.policy.rank b := by
  cases q with
  | fcfs items => exact pairwise_of_forall fun _ _ => le_rfl
  | priority queue => exact queue.order_sorted

theorem order_addRequests_filter (b : ℚ) : (q.addRequests reqs).order.filter (fun x => q.policy.rank x = b) =
    (q.order ++ reqs).filter fun x => q.policy.rank x = b := by
  cases q with
  | fcfs items => rfl
  | priority queue => exact queue.order_addRequests_filter reqs b

theorem order_prependRequests_filter (b : ℚ) : (q.prependRequests reqs).order.filter (fun x => q.policy.rank x = b) =
    (reqs ++ q.order).filter fun x => q.policy.rank x = b := by
  cases q with
  | fcfs items => rfl
  | priority queue => exact queue.order_prependRequests_filter reqs b

end WaitingQueue

end TrtLlm.Scheduler
