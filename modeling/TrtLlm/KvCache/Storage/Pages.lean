import TrtLlm.KvCache.Storage.PrepareFreeSlots

/-!
# Page operations

What the caches do with pages: holding and locking them, committing them to blocks of the radix tree, taking new slots,
and bringing pages up to a level. The queues follow in the destructors of holders and locks. What the tree answers to a
commit (its next state, and the superseded page) is an argument.
-/

namespace TrtLlm.KvCache.StorageParams

variable {T : Type} (P : StorageParams T)

/-! ### Holders and locks -/

variable (id : PageId)

def hold : StorageM T PUnit := do
  let p ← getPage id
  modify (·.setPage id (some { p with holders := p.holders + 1 }))
  onlyIf (p.nodeRef && !P.isEvictable { p with holders := p.holders + 1 }) (P.excludeFromEviction id)

def isStored (s : Storage T) (id : PageId) (p : Page) : Bool :=
  match p.block with
  | some block => P.holdsPage s.tree block id
  | none => false

/-- `_PageHolder.__del__`, and with it the last reference to a page that is not queued. -/
def holderDel : StorageM T PUnit := do
  let p ← getPage id
  onlyIf (p.committed && !p.nodeRef) (P.scheduleForEviction id)
  let s ← get
  onlyIf (if p.committed then !P.isStored s id p else p.nodeRef) (P.excludeFromEviction id)
  P.dropRef id

def dropHolder : StorageM T PUnit := do
  let p ← getPage id
  modify (·.setPage id (some { p with holders := p.holders - 1 }))
  onlyIf (p.holders = 1 ∧ p.locks = 0) (P.holderDel id)

/-- `Page.lock`. The holder it makes is the lock's. -/
def lock : StorageM T PUnit := do
  P.hold id
  let p ← getPage id
  onError (check (p.cacheLevel = 0) .valueError) (P.dropHolder id)
  onlyIf p.nodeRef (P.excludeFromEviction id)
  modify (·.setPage id (some { p with nodeRef := false, holders := p.holders - 1, locks := p.locks + 1 }))

/-- `_UniqPageLock.__del__`, once its holder reference is gone. -/
def uniqLockDel : StorageM T PUnit := do
  let p ← getPage id
  onlyIf (p.holders = 0) (P.holderDel id)
  onlyIf (p.holders ≠ 0) (P.scheduleForEviction id)

/-- `_SharedPageLock.unlock`; the last one sets the ready event of the slot. -/
def unlock (finishEvent : EventId) : StorageM T PUnit := do
  let p ← getPage id
  modify (·.setPage id (some { p with
    locks := p.locks - 1
    slot := if p.locks = 1 then { p.slot with readyEvent := some finishEvent } else p.slot }))
  onlyIf (p.locks = 1) (P.uniqLockDel id)

/-! ### New pages -/

/-- `UncommittedPage(…, GPU_LEVEL, slot).lock(…)`. -/
def newPage (lifeCycle : Nat) (priority : Priority) (slot : Slot) : StorageM T PUnit := modify fun s => { s with
    nextPage := s.nextPage + 1
    page := (s.setPage s.nextPage (some ⟨lifeCycle, 0, slot, priority, 0, 1, false, none, false⟩)).page }

/-- The end of `Block.replace_page` for the page that was in the place. -/
def supersede (p : Page) : StorageM T PUnit := do
  modify (·.setPage id (some { p with block := none }))
  onlyIf p.nodeRef (P.excludeFromEviction id)
  P.dropRef id

/-- `Block.replace_page`: a committed page gets its place in a block. -/
def replacePage (tree : T) (superseded : Option PageId) : StorageM T PUnit := fun s =>
  match superseded.bind fun id => (s.page id).map (id, ·) with
  | none => .ok ⟨⟩ { s with tree := tree }
  | some (id, p) => P.supersede id p { s with tree := tree }

def newCommitted (p : Page) (block : Nat) : StorageM T PageId := fun s =>
  .ok s.nextPage { s with
    nextPage := s.nextPage + 1
    page := (s.setPage s.nextPage (some { p with
      holders := 0, locks := 0, committed := true, block := some block, nodeRef := false })).page }

/-- The holder or lock that a cache has of an uncommitted page goes away while the cache keeps the page. -/
def takeUncommittedPage : StorageM T PUnit := do
  let p ← getPage id
  modify (·.setPage id (some { p with holders := p.holders - 1, locks := p.locks - 1 }))
  onlyIf p.nodeRef (P.excludeFromEviction id)

/-- `UncommittedPage.convert_to_committed`. The slot moves to the new page and the old one ends without it. -/
def convertToCommitted (block : Nat) (readyEvent : EventId) (tree : T) (superseded : Option PageId) : StorageM T PageId := do
  let p ← getPage id
  check (!p.nodeRef) (.assertion .nodeRef)
  check (p.status = .droppable) (.assertion .droppable)
  modify (·.setPage id none)
  let committed ← newCommitted { p with slot := { p.slot with readyEvent := some readyEvent } } block
  P.replacePage tree superseded
  pure committed

/-- What a cache does with a page it has just committed: lock it; hold it until the end of the commit, as the block is
stale; or give it away, as the state of an SSM layer. -/
inductive CommitMode where
  | lock
  | release
  | schedule
deriving DecidableEq, Repr

def finishCommit : CommitMode → StorageM T PUnit
  | .lock => P.lock id
  | .release => do
      P.hold id
      P.dropHolder id
  | .schedule => P.scheduleForEviction id

/-- Committing an uncommitted page of a cache to a block. -/
def commitPage (block : Nat) (readyEvent : EventId) (tree : T) (superseded : Option PageId) (mode : CommitMode) :
    StorageM T PUnit := do
  P.takeUncommittedPage id
  let committed ← P.convertToCommitted id block readyEvent tree superseded
  P.finishCommit committed mode

/-- `_copy_page_to_tree_block`, once it has a slot. -/
def copyToBlock (lifeCycle level : Nat) (priority : Priority) (slot : Slot) (block : Nat) (tree : T)
    (superseded : Option PageId) : StorageM T PUnit := do
  let committed ← newCommitted ⟨lifeCycle, level, slot, priority, 0, 0, true, none, false⟩ block
  P.replacePage tree superseded
  P.scheduleForEviction committed

/-! ### The radix tree -/

def relinkPage (block : Nat) : StorageM T PUnit := modify fun s => s.setPage id ((s.page id).map ({ · with block := some block }))

/-- One page that `_adopt_pages_from` moves to a block, and the page it supersedes there. -/
def adoptPage (adoption : PageId × Nat × Option PageId) : StorageM T PUnit := do
  relinkPage adoption.1 adoption.2.1
  let s ← get
  P.replacePage s.tree adoption.2.2

/-- A change of the tree by a cache: pages adopted by other blocks, and pages of blocks that were removed. -/
def alterTree (tree : T) (adopted : List (PageId × Nat × Option PageId)) (released : List PageId) : StorageM T PUnit := do
  modify ({ · with tree := tree })
  adopted.forM P.adoptPage
  released.forM P.releasePage

def excludeDroppable : StorageM T PUnit := fun s =>
  match s.page id with
  | none => .ok ⟨⟩ s
  | some p => onlyIf (p.status = .droppable ∧ p.nodeRef) (P.excludeFromEviction id) s

/-- `PlannedDropHandle.drop`, for the pages whose last plan this is. -/
def plannedDrop (ids : List PageId) : StorageM T PUnit := do
  ids.forM P.excludeDroppable
  ids.forM P.dropRef

/-! ### Slots and levels -/

def slotsOfGroup (numSlots : Nat → Nat) (pg : Nat) : Nat :=
  (((List.range P.numLifeCycles).filter (P.lifeCycleGrouping · = pg)).map numSlots).sum

def allocateAll (level : Nat) (numSlots : Nat → Nat) : List Nat → StorageM T (List (List Slot))
  | [] => pure []
  | lc :: lcs => do
      let slots ← P.allocateFrom level (P.lifeCycleGrouping lc) (numSlots lc)
      let others ← allocateAll level numSlots lcs
      pure (slots :: others)

def newSlots (level : Nat) (numSlots : Nat → Nat) : StorageM T (List (List Slot)) := do
  check (level < P.numCacheLevels) .indexError
  let s ← get
  onlyIf (P.poolGroups.any fun pg => s.free level pg < P.slotsOfGroup numSlots pg)
    (P.prepareFreeSlots level fun pg => P.slotsOfGroup numSlots pg)
  let s ← get
  check (P.poolGroups.all fun pg => P.slotsOfGroup numSlots pg ≤ s.free level pg) (.assertion .enoughSlots)
  P.allocateAll level numSlots (List.range P.numLifeCycles)

def newSlotsForPoolGroup (level pg numSlots : Nat) : StorageM T (List Slot) := do
  check (level < P.numCacheLevels ∧ pg < P.numPoolGroups) .indexError
  let s ← get
  onlyIf (s.free level pg < numSlots) (P.prepareFreeSlots level fun g => if g = pg then numSlots else 0)
  let s ← get
  check (numSlots ≤ s.free level pg) (.assertion .enoughSlots)
  P.allocateFrom level pg numSlots

def releaseSlot (lifeCycle level : Nat) (slot : Slot) : StorageM T PUnit := P.releaseTo level (P.lifeCycleGrouping lifeCycle) slot

def excludeQueued : StorageM T PUnit := do
  let p ← getPage id
  onlyIf p.nodeRef (P.excludeFromEviction id)

def numToBring (s : Storage T) (dst : Nat) (ids : List PageId) (pg : Nat) : Nat :=
  ids.countP fun id => (s.page id).any fun p => p.cacheLevel ≠ dst ∧ P.poolGroup p = pg

def bringTo (dst : Nat) (groups : List ((Nat × Nat) × List PageId)) : StorageM T PUnit :=
  groups.forM fun group => onlyIf (group.1.1 ≠ dst) (P.batchedMigrate group.1.2 dst group.1.1 group.2 false)

def batchedLockToGpu (ids : List PageId) : StorageM T PUnit := do
  let s ← get
  ids.forM P.excludeQueued
  onError (do
    P.prepareFreeSlots 0 fun pg => P.numToBring s 0 ids pg
    let s ← get
    P.bringTo 0 (partition (P.sourceOf s) ids)) ((ids.filter fun id => (s.page id).any (·.nodeRef)).forM P.scheduleForEviction)
  ids.forM P.lock

/-- The pages `prefetch` schedules at its end: those that were queued, and those that can be evicted from `dst`. -/
def rescheduled (s : Storage T) (dst : Nat) (ids : List PageId) : List PageId :=
  ids.filter fun id => (s.page id).any fun p => p.nodeRef || P.isEvictable { p with cacheLevel := dst }

/-- The argument of `prefetch`: pages by pool group and level. -/
def byPoolGroupAndLevel (s : Storage T) (ids : List PageId) : List ((Nat × Nat) × List PageId) :=
  P.poolGroups.flatMap fun pg => (List.range P.numCacheLevels).map fun lvl =>
    ((lvl, pg), ids.filter (P.sourceOf s · = (lvl, pg)))

def prefetch (dst : Nat) (ids : List PageId) : StorageM T PUnit := do
  let s ← get
  onError (do
    ids.forM P.excludeQueued
    P.prepareFreeSlots dst fun pg => P.numToBring s dst ids pg
    P.bringTo dst (P.byPoolGroupAndLevel s ids)) ((P.rescheduled s dst ids).forM P.scheduleForEviction)
  (P.rescheduled s dst ids).forM P.scheduleForEviction

def forceEvict (level : Nat) (minNumPages : Nat → Nat) : StorageM T PUnit := do
  check (level < P.numCacheLevels) .indexError
  let evicted ← P.evict level minNumPages
  if level + 1 = P.numCacheLevels then P.abandon evicted
  else do
    let _ ← P.prepareAt (fun _ _ => 0) (P.numCacheLevels - 2 - level) (level + 1) evicted

end TrtLlm.KvCache.StorageParams
