import Mathlib

/-!
# The eviction queue of one pool group

`PrioritizedLRUEvictionPolicy` keeps a queue of pages for each priority, in a dict that is sorted whenever a key is
added. `remove` drops a queue it has emptied; `pop` takes from the first queue and leaves it in place even when it was
its last page, so an emptied queue can stand in front of others.
-/

namespace TrtLlm.KvCache

open List Prod

abbrev PageId := Nat

abbrev Priority := Int

/-- `_policies`: a queue of pages for each priority, by ascending priority. -/
structure PrioritizedEvictionPolicy where
  policies : List (Priority × List PageId)
  sorted : (policies.map fst).Pairwise (· < ·)

namespace PrioritizedEvictionPolicy

def empty : PrioritizedEvictionPolicy := ⟨[], by simp⟩

def pushIn (priority : Priority) (page : PageId) (evictFirst : Bool) :
    List (Priority × List PageId) → List (Priority × List PageId)
  | [] => [(priority, [page])]
  | (key, queue) :: rest =>
    if priority = key then (key, if evictFirst then page :: queue else queue ++ [page]) :: rest
    else if priority < key then (priority, [page]) :: (key, queue) :: rest
    else (key, queue) :: pushIn priority page evictFirst rest

/-- `_policies[priority].remove(node)`, and the queue goes when it is empty. `none` is a `KeyError`, or a node
that is not in the queue. -/
def removeFrom (priority : Priority) (page : PageId) :
    List (Priority × List PageId) → Option (List (Priority × List PageId))
  | [] => none
  | (key, queue) :: rest =>
    if priority = key then
      if page ∈ queue then
        some (if queue.erase page = [] then rest else (key, queue.erase page) :: rest)
      else none
    else (removeFrom priority page rest).map ((key, queue) :: ·)

def entriesOf (policies : List (Priority × List PageId)) : List (Priority × PageId) :=
  policies.flatMap fun policy => policy.2.map (policy.1, ·)

variable (ps : PrioritizedEvictionPolicy)

def entries : List (Priority × PageId) := entriesOf ps.policies

def length : Nat := (ps.policies.map (·.2.length)).sum

def pages : List PageId := ps.policies.flatMap snd

variable {prio : Priority} {page : PageId} {pols : List (Priority × List PageId)}

theorem pushIn_keys {key : Priority} {first : Bool} :
    key ∈ (pushIn prio page first pols).map fst ↔ key = prio ∨ key ∈ pols.map fst := by
  induction pols with
  | nil => simp [pushIn]
  | cons policy rest ih =>
    unfold pushIn
    split
    · rename_i heq
      simp [heq]
    · split
      · simp
      · rw [map_cons, mem_cons, ih, map_cons, mem_cons]
        exact or_left_comm

theorem pushIn_sorted (prio : Priority) (page : PageId) (first : Bool)
    (h : (pols.map fst).Pairwise (· < ·)) :
    ((pushIn prio page first pols).map fst).Pairwise (· < ·) := by
  induction pols with
  | nil => simp [pushIn]
  | cons policy rest ih =>
    obtain ⟨hkey, hrest⟩ := pairwise_cons.1 h
    unfold pushIn
    split
    · exact h
    rename_i hne
    split
    · rename_i hlt
      exact pairwise_cons.2 ⟨forall_mem_cons.2 ⟨hlt, fun k hk => Int.lt_trans hlt (hkey k hk)⟩, h⟩
    rename_i hge
    refine pairwise_cons.2 ⟨fun k hk => ?_, ih hrest⟩
    rcases pushIn_keys.1 hk with rfl | hk
    · exact Int.lt_iff_le_and_ne.2 ⟨Int.not_lt.1 hge, Ne.symm hne⟩
    · exact hkey k hk

theorem removeFrom_sublist {left : List (Priority × List PageId)}
    (h : removeFrom prio page pols = some left) :
    (left.map fst).Sublist (pols.map fst) := by
  induction pols generalizing left with
  | nil => cases h
  | cons policy rest ih =>
    obtain ⟨key, queue⟩ := policy
    unfold removeFrom at h
    split at h
    · split at h
      · obtain rfl := Option.some.inj h
        split
        · exact sublist_cons_self _ _
        · exact .refl _
      · cases h
    · obtain ⟨left', hleft, rfl⟩ := Option.map_eq_some_iff.1 h
      exact (ih hleft).cons_cons key

def push (priority : Priority) (page : PageId) (evictFirst : Bool) : PrioritizedEvictionPolicy :=
  ⟨pushIn priority page evictFirst ps.policies, pushIn_sorted priority page evictFirst ps.sorted⟩

def remove (priority : Priority) (page : PageId) : Option PrioritizedEvictionPolicy :=
  match h : removeFrom priority page ps.policies with
  | none => none
  | some left => some ⟨left, ps.sorted.sublist (removeFrom_sublist h)⟩

/-- What `pop` raises: `next(iter(...))` on an empty dict, or the assertion that the first queue has a page. -/
inductive PopError where
  | stopIteration
  | noVictim
deriving DecidableEq, Repr

def pop : Except PopError (PageId × PrioritizedEvictionPolicy) :=
  match ps with
  | ⟨[], _⟩ => .error .stopIteration
  | ⟨(_, []) :: _, _⟩ => .error .noVictim
  | ⟨(key, page :: queue) :: rest, h⟩ => .ok (page, ⟨(key, queue) :: rest, h⟩)

@[simp] theorem entriesOf_cons (policy : Priority × List PageId) (rest : List (Priority × List PageId)) :
    entriesOf (policy :: rest) = policy.2.map (policy.1, ·) ++ entriesOf rest := rfl

theorem length_eq : ps.length = ps.entries.length := by
  rw [length, entries, entriesOf]
  simp

theorem entries_push (prio : Priority) (page : PageId) (first : Bool) :
    (ps.push prio page first).entries.Perm ((prio, page) :: ps.entries) := by
  obtain ⟨pols, hsorted⟩ := ps
  change (entriesOf (pushIn prio page first pols)).Perm (_ :: entriesOf pols)
  clear hsorted
  induction pols with
  | nil => exact .refl _
  | cons policy rest ih =>
    obtain ⟨key, queue⟩ := policy
    unfold pushIn
    split
    · rename_i heq
      subst heq
      cases first with
      | true => exact .refl _
      | false =>
        rw [if_neg Bool.false_ne_true, entriesOf_cons, map_append, append_assoc]
        exact perm_middle
    · split
      · exact .refl _
      · refine ((ih.append_left (queue.map (key, ·)))).trans ?_
        exact perm_middle

theorem mem_entriesOf : (prio, page) ∈ entriesOf pols ↔ ∃ queue, (prio, queue) ∈ pols ∧ page ∈ queue := by
  simp [entriesOf]

/-- A queued page can be removed: its priority names the one queue that holds it. -/
theorem remove_spec (hmem : (prio, page) ∈ ps.entries) :
    ∃ left, ps.remove prio page = some left ∧ ps.entries.Perm ((prio, page) :: left.entries) := by
  have hfrom : ∀ pols : List (Priority × List PageId), (pols.map fst).Pairwise (· < ·) →
      (prio, page) ∈ entriesOf pols → ∃ left, removeFrom prio page pols = some left ∧
        (entriesOf pols).Perm ((prio, page) :: entriesOf left) := by
    intro pols hsorted hmem
    induction pols with
    | nil => cases hmem
    | cons policy rest ih =>
      obtain ⟨key, queue⟩ := policy
      obtain ⟨hkey, hrest⟩ := pairwise_cons.1 hsorted
      obtain ⟨queue', hqueue, hpage⟩ := mem_entriesOf.1 hmem
      unfold removeFrom
      by_cases heq : prio = key
      · subst heq
        have hmine : page ∈ queue := by
          rcases mem_cons.1 hqueue with h | h
          · cases h
            exact hpage
          · exact absurd (hkey prio (mem_map_of_mem h)) (Int.lt_irrefl _)
        have hperm := ((perm_cons_erase hmine).map (prio, ·)).append_right (entriesOf rest)
        rw [if_pos rfl, if_pos hmine]
        split
        · rename_i hnil
          refine ⟨rest, rfl, ?_⟩
          rw [hnil] at hperm
          exact hperm
        · exact ⟨_, rfl, hperm⟩
      · have htail : (prio, page) ∈ entriesOf rest := by
          rcases mem_cons.1 hqueue with h | h
          · exact absurd (Prod.mk.inj h).1 heq
          · exact mem_entriesOf.2 ⟨queue', h, hpage⟩
        obtain ⟨left, hleft, hperm⟩ := ih hrest htail
        refine ⟨(key, queue) :: left, by rw [if_neg heq, hleft]; rfl, ?_⟩
        exact (hperm.append_left _).trans perm_middle
  obtain ⟨left, hleft, hperm⟩ := hfrom ps.policies ps.sorted hmem
  refine ⟨⟨left, ps.sorted.sublist (removeFrom_sublist hleft)⟩, ?_, hperm⟩
  unfold remove
  split
  · rename_i hnone
    rw [hleft] at hnone
    cases hnone
  · rename_i left' hsome
    rw [hleft] at hsome
    cases hsome
    rfl

def frontLength : Nat := ps.policies.head?.elim 0 (·.2.length)

/-- What `pop` takes is the first page in the order of the queues; pushed back in front it gives the queues back. -/
theorem pop_ok {ps left : PrioritizedEvictionPolicy} (h : ps.pop = .ok (page, left)) :
    ∃ prio, ps.entries = (prio, page) :: left.entries ∧ left.push prio page true = ps ∧
      ps.frontLength = left.frontLength + 1 := by
  unfold pop at h
  split at h
  · cases h
  · cases h
  rename_i key first queue rest hsorted
  cases h
  exact ⟨key, rfl, by simp [push, pushIn], rfl⟩

/-- `pop` stops at an empty queue in front; with a page queued, that is an emptied one. -/
theorem pop_error {ps : PrioritizedEvictionPolicy} {e : PopError} (h : ps.pop = .error e) :
    ps.frontLength = 0 ∧ (0 < ps.length → e = .noVictim) := by
  unfold pop at h
  split at h
  · exact ⟨rfl, fun hlen => absurd hlen (Nat.lt_irrefl 0)⟩
  · exact ⟨rfl, fun _ => (Except.error.inj h).symm⟩
  · cases h

end PrioritizedEvictionPolicy

end TrtLlm.KvCache
