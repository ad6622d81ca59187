import TrtLlm.KvCache.EvictionPolicy
import TrtLlm.KvCache.SlotAllocator
import TrtLlm.Lib.Outcome
import TrtLlm.Lib.Partition

/-!
# The storage manager

`StorageManager` keeps pages in a hierarchy of cache levels. Each level has a slot allocator and an eviction queue for
every pool group. `prepare_free_slots` makes room at a level by moving the pages at the front of its queue one level
down, and so on; what does not fit in the last level is dropped.

Pages live as long as something refers to them: an eviction queue, a holder, or a list of the running function. A page
that loses its last reference releases its slot and leaves its radix-tree block, and the tree may then give up further
pages. The tree is a parameter: `unlinkPage` is its answer to the loss of a page, whatever that is.
-/

namespace TrtLlm.KvCache

inductive PageStatus where
  | locked
  | held
  | droppable
deriving DecidableEq, Repr

/-- A page with its slot. `holders` counts the references to its holder except those of locks, `locks` the shared locks;
`nodeRef`: it has a node in an eviction queue. -/
structure Page where
  lifeCycle : Nat
  cacheLevel : Nat
  slot : Slot
  priority : Priority
  holders : Nat
  locks : Nat
  committed : Bool
  block : Option Nat
  nodeRef : Bool
deriving DecidableEq, Repr

def Page.status (p : Page) : PageStatus :=
  if 0 < p.locks then .locked else if 0 < p.holders then .held else .droppable

inductive Assertion where
  | nodeRef
  | cacheLevel
  | noVictim
  | droppable
  | freeCount
  | heldPages
  | numAccepted
  | fallenPages
  | sameLevel
  | enoughSlots
  | persistentPages
  | shrinkTarget
  | overflowSlots
deriving DecidableEq, Repr

/-- The exceptions of the storage code; `deadPage` is the use of a page that no longer exists. -/
inductive StorageError where
  | outOfPages
  | logicError
  | valueError
  | indexError
  | keyError
  | stopIteration
  | deadPage
  | alloc (error : AllocError)
  | assertion (which : Assertion)
deriving DecidableEq, Repr

/-- A storage configuration and what it asks: the events (`complete` at a time), and the radix tree `T`, which answers
the loss of a page of a block with its next state and the pages it gives up. -/
structure StorageParams (T : Type) where
  numCacheLevels : Nat
  numPoolGroups : Nat
  numLifeCycles : Nat
  lifeCycleGrouping : Nat → Nat
  complete : Nat → EventId → Bool
  unlinkPage : T → Nat → Nat → PageId → T × List PageId
  holdsPage : T → Nat → PageId → Bool

structure Storage (T : Type) where
  pool : Nat → Nat → SlotAllocator
  policy : Nat → Nat → PrioritizedEvictionPolicy
  page : PageId → Option Page
  nextPage : PageId
  tree : T
  time : Nat

namespace Storage

variable {T : Type} (s : Storage T)

def setPool (lvl pg : Nat) (a : SlotAllocator) : Storage T :=
  { s with pool := fun l g => if l = lvl ∧ g = pg then a else s.pool l g }

def setPolicy (lvl pg : Nat) (ps : PrioritizedEvictionPolicy) : Storage T :=
  { s with policy := fun l g => if l = lvl ∧ g = pg then ps else s.policy l g }

def setPage (id : PageId) (p : Option Page) : Storage T := { s with page := fun i => if i = id then p else s.page i }

def tick (n : Nat) : Storage T := { s with time := s.time + n }

def free (lvl pg : Nat) : Nat := (s.pool lvl pg).numFreeSlots

def evictable (lvl pg : Nat) : Nat := (s.policy lvl pg).length

def hasStatus (status : PageStatus) (id : PageId) : Bool :=
  match s.page id with
  | some p => p.status = status
  | none => false

end Storage

abbrev StorageM (T : Type) := EStateM StorageError (Storage T)

namespace StorageParams

variable {T : Type} (P : StorageParams T)

def poolGroup (p : Page) : Nat := P.lifeCycleGrouping p.lifeCycle

def isEvictable (p : Page) : Bool :=
  (p.status = .droppable ∧ p.committed) ∨ (p.status = .held ∧ p.cacheLevel + 1 < P.numCacheLevels)

def poolGroups : List Nat := List.range P.numPoolGroups

variable (id : PageId)

def getPage : StorageM T Page := fun s =>
  match s.page id with
  | some p => .ok p s
  | none => .error .deadPage s

def check (condition : Bool) (error : StorageError) : StorageM T PUnit := fun s =>
  if condition then .ok ⟨⟩ s else .error error s

def onlyIf (condition : Bool) (m : StorageM T PUnit) : StorageM T PUnit := if condition then m else pure ⟨⟩

def releaseTo (lvl pg : Nat) (slot : Slot) : StorageM T PUnit := fun s =>
  match (s.pool lvl pg).release (P.complete s.time) slot with
  | .error e => .error (.alloc e) s
  | .ok a => .ok ⟨⟩ ((s.setPool lvl pg a).tick 1)

def allocateFrom (lvl pg numSlots : Nat) : StorageM T (List Slot) := fun s =>
  match (s.pool lvl pg).allocateMultiple (fun i => P.complete (s.time + i)) numSlots with
  | .error e => .error (.alloc e) s
  | .ok (slots, a) => .ok slots ((s.setPool lvl pg a).tick numSlots)

/-- `PerLevelEvictionController.schedule_for_eviction` of level `lvl`. -/
def scheduleIn (evictFirst : Bool) (lvl : Nat) (id : PageId) : StorageM T PUnit := do
  let p ← getPage id
  check (!p.nodeRef) (.assertion .nodeRef)
  check (p.cacheLevel = lvl) (.assertion .cacheLevel)
  modify fun s =>
    (s.setPolicy lvl (P.poolGroup p) ((s.policy lvl (P.poolGroup p)).push p.priority id evictFirst)).setPage id
      (some { p with nodeRef := true })

def scheduleForEviction : StorageM T PUnit := do
  let p ← getPage id
  onlyIf (P.isEvictable p) (P.scheduleIn false p.cacheLevel id)

def excludeFromEviction : StorageM T PUnit := do
  let p ← getPage id
  check p.nodeRef (.assertion .nodeRef)
  let s ← get
  match (s.policy p.cacheLevel (P.poolGroup p)).remove p.priority id with
  | none => throw .keyError
  | some ps => set ((s.setPolicy p.cacheLevel (P.poolGroup p) ps).setPage id (some { p with nodeRef := false }))

/-! ### The end of a page -/

def freePage (p : Page) : StorageM T PUnit := do
  P.releaseTo p.cacheLevel (P.poolGroup p) p.slot
  modify (·.setPage id none)

/-- What `_release_pages` does with a page of a block: the page leaves the block, and if it only waited for eviction,
the queue, which held the last reference to it. -/
def unlinkFromBlock (p : Page) : StorageM T PUnit := do
  modify (·.setPage id (some { p with block := none }))
  onlyIf (p.status = .droppable ∧ p.nodeRef) do
    P.excludeFromEviction id
    P.freePage id p

def releasePage : StorageM T PUnit := fun s =>
  match s.page id with
  | none => .ok ⟨⟩ s
  | some p => P.unlinkFromBlock id p s

/-- What the radix tree does when page `id` of `block` ends. -/
def tellTree (lifeCycle : Nat) : Option Nat → StorageM T PUnit
  | none => pure ⟨⟩
  | some block => fun s =>
    (P.unlinkPage s.tree block lifeCycle id).2.forM P.releasePage { s with tree := (P.unlinkPage s.tree block lifeCycle id).1 }

/-- `CommittedPage.__del__` and `UncommittedPage.__del__`. -/
def dropPage (p : Page) : StorageM T PUnit := do
  P.tellTree id p.lifeCycle (if p.committed then p.block else none)
  P.freePage id p

/-- A list or a holder gives up its reference: the page ends if nothing else refers to it. -/
def dropRef : StorageM T PUnit := fun s =>
  match s.page id with
  | none => .ok ⟨⟩ s
  | some p => if p.status = .droppable ∧ p.nodeRef = false then P.dropPage id p s else .ok ⟨⟩ s

/-! ### Migration -/

/-- One round of the second loop of `_batched_migrate`, with `update_src`. -/
def migrateOne (pg dst src : Nat) (finishEvent : EventId) (id : PageId) (slot : Slot) : StorageM T PUnit := do
  let p ← getPage id
  onlyIf p.nodeRef (P.excludeFromEviction id)
  P.releaseTo src pg { p.slot with readyEvent := some finishEvent }
  modify (·.setPage id (some { p with
    nodeRef := false, cacheLevel := dst, slot := { slot with readyEvent := some finishEvent } }))
  onlyIf p.nodeRef (P.scheduleForEviction id)

/-- `_batched_migrate` with `update_src`. The copies are left out: they decide the finish event only. -/
def batchedMigrate (pg dst src : Nat) (ids : List PageId) (defrag : Bool) : StorageM T PUnit := do
  check (defrag || dst ≠ src) (.assertion .sameLevel)
  let s ← get
  check (ids.length ≤ s.free dst pg) .outOfPages
  let slots ← P.allocateFrom dst pg ids.length
  onError (check (defrag || ids.all fun id => (s.page id).all (!·.nodeRef)) (.assertion .nodeRef))
    (slots.forM (P.releaseTo dst pg))
  (ids.zip slots).forM fun pair => P.migrateOne pg dst src s.time pair.1 pair.2

/-! ### Eviction -/

def popError : PrioritizedEvictionPolicy.PopError → StorageError
  | .stopIteration => .stopIteration
  | .noVictim => .assertion .noVictim

/-- The inner loop of `evict`; the exception that ends it early is returned with what was popped so far. -/
def popPages (lvl pg : Nat) : Nat → List PageId → StorageM T (List PageId × Option StorageError)
  | 0, popped => pure (popped, none)
  | n + 1, popped => do
      match (← get).policy lvl pg |>.pop with
      | .error e => pure (popped, some (popError e))
      | .ok (id, ps) =>
        modify fun s => (s.setPolicy lvl pg ps).setPage id ((s.page id).map ({ · with nodeRef := false }))
        popPages lvl pg n (popped ++ [id])

def evictLoop (lvl : Nat) (minNumPages : Nat → Nat) :
    List Nat → (Nat → List PageId) → StorageM T ((Nat → List PageId) × Option StorageError)
  | [], evicted => pure (evicted, none)
  | pg :: pgs, evicted => do
      if (← get).evictable lvl pg < minNumPages pg then pure (evicted, some .outOfPages)
      else
        let (popped, error) ← popPages lvl pg (minNumPages pg) []
        match error with
        | some e => pure (Function.update evicted pg popped, some e)
        | none => evictLoop lvl minNumPages pgs (Function.update evicted pg popped)

/-- `PerLevelEvictionController.evict` of level `lvl`; on an exception the pages go back to the queues. -/
def evict (lvl : Nat) (minNumPages : Nat → Nat) : StorageM T (Nat → List PageId) := do
  let (evicted, error) ← evictLoop lvl minNumPages P.poolGroups fun _ => []
  match error with
  | none =>
    let s ← get
    check ((P.poolGroups.flatMap evicted).all fun id => (s.page id).all (·.cacheLevel = lvl)) (.assertion .cacheLevel)
    pure evicted
  | some e =>
    (P.poolGroups.flatMap evicted).reverse.forM (P.scheduleIn true lvl)
    throw e

/-! ### Making room -/

/-- The lists of a function that raises are given up. -/
def abandon (lists : Nat → List PageId) : StorageM T PUnit := P.poolGroups.forM fun pg => (lists pg).forM P.dropRef

def numToEvict (goal : Int) (fallen oldFree evictable : Nat) : Nat := (max 0 (min (goal + fallen - oldFree) evictable)).toNat

/-- The two conditions under which `_prepare_free_slots` raises `OutOfPagesError` for a pool group. -/
def lacksRoom (goal : Int) (fallenHeld oldFree evictable : Nat) : Bool :=
  oldFree + evictable < fallenHeld ∨ (oldFree : Int) + evictable - fallenHeld < goal

/-- The counting loop of `_prepare_free_slots`, and the eviction it leads to. `fallenHeld` is zero above the last
level. -/
def evictForGoals (goals : Nat → Nat → Int) (lvl : Nat) (fallen : Nat → List PageId) (fallenHeld : Nat → Nat) :
    StorageM T (Nat → List PageId) := do
  let s ← get
  check (P.poolGroups.all fun pg =>
    !lacksRoom (goals lvl pg) (fallenHeld pg) (s.free lvl pg) (s.evictable lvl pg)) .outOfPages
  P.evict lvl fun pg => numToEvict (goals lvl pg) (fallen pg).length (s.free lvl pg) (s.evictable lvl pg)

/-- The round of the last level for one pool group: the evicted pages end, and the fallen ones that find no slot. `rest`
and `held` are what `remove_if` made of the fallen pages. -/
def acceptLast (goal : Int) (lvl pg : Nat) (evicted rest held : List PageId) : StorageM T (List PageId) := do
  let oldFree := (← get).free lvl pg
  evicted.reverse.forM P.dropRef
  let newFree := (← get).free lvl pg
  check (evicted.length + oldFree ≤ newFree) (.assertion .freeCount)
  check (held.length ≤ newFree) (.assertion .heldPages)
  let numAccepted : Int := min (newFree - goal) (rest ++ held).length
  check (0 ≤ numAccepted) (.assertion .numAccepted)
  let cut := (rest ++ held).length - numAccepted.toNat
  ((rest ++ held).take cut).reverse.forM P.dropRef
  pure ((rest ++ held).drop cut)

def acceptAllLast (goals : Nat → Nat → Int) (lvl : Nat) (evicted rest held : Nat → List PageId) :
    List Nat → StorageM T (Nat → List PageId)
  | [] => pure fun _ => []
  | pg :: pgs => do
      let accepted ← P.acceptLast (goals lvl pg) lvl pg (evicted pg) (rest pg) (held pg)
      let others ← acceptAllLast goals lvl evicted rest held pgs
      pure (Function.update others pg accepted)

/-- Scheduling a migrated page; a held page of the last level cannot be evicted. -/
def scheduleAccepted (lvl : Nat) (isLastLevel : Bool) (id : PageId) : StorageM T PUnit := do
  let p ← getPage id
  onlyIf (!(isLastLevel && p.status = .held)) (P.scheduleIn false lvl id)

def sourceOf (s : Storage T) (id : PageId) : Nat × Nat :=
  match s.page id with
  | some p => (p.cacheLevel, P.poolGroup p)
  | none => (0, 0)

def migrateGroup (lvl : Nat) (isLastLevel : Bool) (group : (Nat × Nat) × List PageId) : StorageM T PUnit := do
  P.batchedMigrate group.1.2 lvl group.1.1 group.2 false
  group.2.forM (P.scheduleAccepted lvl isLastLevel)

def migrateAccepted (lvl : Nat) (isLastLevel : Bool) (accepted : List PageId) : StorageM T PUnit := fun s =>
  (partition (P.sourceOf s) accepted).forM (P.migrateGroup lvl isLastLevel) s

/-- The end of `_prepare_free_slots`. -/
def finishLevel (lvl : Nat) (isLastLevel : Bool) (left accepted : Nat → List PageId) : StorageM T PUnit := do
  check (P.poolGroups.all fun pg => (left pg).isEmpty) (.assertion .fallenPages)
  P.poolGroups.forM fun pg => P.migrateAccepted lvl isLastLevel (accepted pg)

/-- How many of the fallen pages a level above the last one accepts. -/
def numAccepted (goal : Int) (oldFree evicted fallen : Nat) : Int := min (oldFree + evicted - goal) (evicted + fallen : Nat)

/-- `_prepare_free_slots` at level `lvl`, with `below` levels under it; the result is what is left in the lists of
fallen pages. -/
def prepareAt (goals : Nat → Nat → Int) : Nat → Nat → (Nat → List PageId) → StorageM T (Nat → List PageId)
  | 0, lvl, fallen => onError (do
      let s ← get
      let held := fun pg => (fallen pg).filter (s.hasStatus .held)
      let rest := fun pg => (fallen pg).filter (!s.hasStatus .held ·)
      let evicted ← P.evictForGoals goals lvl fallen fun pg => (held pg).length
      onError (do
        let accepted ← P.acceptAllLast goals lvl evicted rest held P.poolGroups
        P.finishLevel lvl true (fun _ => []) accepted
        pure fun _ => []) (P.abandon evicted)) (P.abandon fallen)
  | below + 1, lvl, fallen => onError (do
      let evicted ← P.evictForGoals goals lvl fallen fun _ => 0
      onError (do
        let s ← get
        let num := fun pg => numAccepted (goals lvl pg) (s.free lvl pg) (evicted pg).length (fallen pg).length
        check (P.poolGroups.all fun pg => 0 ≤ num pg) (.assertion .numAccepted)
        let all := fun pg => evicted pg ++ fallen pg
        let cut := fun pg => (all pg).length - (num pg).toNat
        let left ← prepareAt goals below (lvl + 1) fun pg => (all pg).take (cut pg)
        P.finishLevel lvl false left fun pg => (all pg).drop (cut pg)
        pure left) (P.abandon evicted)) (P.abandon fallen)

def goalsAt (level : Nat) (requirements : Nat → Int) : Nat → Nat → Int := fun l pg => if l = level then requirements pg else 0

def prepareFreeSlots (level : Nat) (requirements : Nat → Int) : StorageM T PUnit := do
  check (level < P.numCacheLevels) .indexError
  let _ ← P.prepareAt (goalsAt level requirements) (P.numCacheLevels - 1 - level) level fun _ => []
  pure ⟨⟩

end StorageParams

end TrtLlm.KvCache
